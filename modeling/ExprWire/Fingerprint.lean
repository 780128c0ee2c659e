import Std.Data.TreeMap
import ExprWire.Binary.Float
import ExprWire.Sha256
import ExprWire.Text.Units
import ExprWire.Text.Utf8
/-!
Content fingerprints. A thing is described by a salt and a list of fields; the fields are framed by
a tag and a length, and the fingerprint is the first half of the digest of the frames.
-/

namespace ExprWire

/-- Half a SHA-256 digest, in lowercase hexadecimal digits. -/
structure Fingerprint where
  hex : String
  deriving DecidableEq, Repr, Inhabited

namespace Fingerprint

instance : Ord Fingerprint := ⟨fun left right => compare left.hex right.hex⟩

instance : Std.TransOrd Fingerprint where
  eq_swap {left right} := Std.OrientedOrd.eq_swap (a := left.hex) (b := right.hex)
  isLE_trans {left middle right} lower upper :=
    Std.TransOrd.isLE_trans (a := left.hex) (b := middle.hex) (c := right.hex) lower upper

instance : Std.LawfulEqOrd Fingerprint where
  compare_self {fingerprint} := Std.ReflOrd.compare_self (a := fingerprint.hex)
  eq_of_compare {left right} same := by
    have digits : left.hex = right.hex := Std.LawfulEqOrd.eq_of_compare same
    cases left
    cases right
    exact congrArg Fingerprint.mk digits

/-- One framed part of a description. -/
inductive Field where
  | text (content : String)
  | number (x : Binary64)
  | integer (n : Int)
  | bytes (content : Bytes)
  /-- A fingerprint's digits. Its declared length counts 16-bit units. -/
  | digits (content : String)
  deriving DecidableEq

def hexDigits (n : Int) : String :=
  let digits := String.ofList (Nat.toDigits 16 n.natAbs)
  if n < 0 then "-" ++ digits else digits

def frame (tag : UInt8) (length : Nat) (content : Bytes) : Bytes :=
  tag :: Bytes.littleEndian 4 length ++ content

namespace Field

def frame : Field → Bytes
  | .text content =>
      let bytes := Text.utf8 content
      Fingerprint.frame 1 bytes.length bytes
  | .number x => Fingerprint.frame 2 8 (Bytes.littleEndian 8 x.bits.toNat)
  | .integer n =>
      let bytes := Text.utf8 (hexDigits n)
      Fingerprint.frame 3 bytes.length bytes
  | .bytes content => Fingerprint.frame 4 content.length content
  | .digits content => Fingerprint.frame 5 (Text.width content) (Text.utf8 content)

def ofFingerprint (fingerprint : Fingerprint) : Field := .digits fingerprint.hex

end Field

def preimage (salt : String) (fields : List Field) : Bytes :=
  (Field.text salt :: fields).flatMap Field.frame

/-- The first sixteen bytes of the digest. It is irreducible because statements about fingerprints
need only that equal preimages have equal ones; running the digest in a proof would be in vain. -/
@[irreducible] def ofPreimage (bytes : Bytes) : Fingerprint :=
  ⟨Bytes.hex ((Sha256.digest bytes).take 16)⟩

def of (salt : String) (fields : List Field) : Fingerprint := ofPreimage (preimage salt fields)

end Fingerprint

end ExprWire
