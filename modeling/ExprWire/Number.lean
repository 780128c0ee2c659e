import ExprWire.Binary.Decimal
/-!
Numbers as untyped data hold them: an integer, or else a number of 64 bits that is not whole.
Positions, versions and codec slots are such numbers until they have been checked.
-/

namespace ExprWire

inductive Number where
  | whole (n : Int)
  | other (x : Binary64) (notWhole : x.toInt? = none)
  deriving DecidableEq

namespace Number

def ofBinary64 (x : Binary64) : Number :=
  match whole : x.toInt? with
  | some n => .whole n
  | none => .other x whole

def toBinary64 : Number → Binary64
  | .whole n => .ofInt n
  | .other x _ => x

instance : Inhabited Number := ⟨.whole 0⟩

def ofNat (n : Nat) : Number := .whole n

instance (n : Nat) : OfNat Number n := ⟨ofNat n⟩

instance : Coe Nat Number := ⟨ofNat⟩

def toNat? : Number → Option Nat
  | .whole (.ofNat n) => some n
  | _ => none

/-- The number without what comes behind the point; one that is not finite counts as zero. -/
def truncated : Number → Int
  | .whole n => n
  | .other x _ =>
      if x.isFinite then
        let (num, den) := Binary.double.ratio x.magnitude
        let n : Int := (num / den : Nat)
        if x.isNegative then -n else n
      else 0

def exactLimit : Nat := 1 <<< 53

/-- Integers of at most 53 bits are written out; greater ones are written to the digits that tell
them apart from their neighbours among the numbers of 64 bits. -/
def text : Number → String
  | .whole n => if n.natAbs ≤ exactLimit then toString n else (Binary64.ofInt n).text
  | .other x _ => x.text

/-- The number that `digits * 10 ^ exponent` denotes: exact where it is an integer of at most 53
bits, and otherwise rounded to 64 bits. -/
def ofDecimal (negative : Bool) (digits : Nat) (exponent : Int) : Number :=
  if exponent = 0 ∧ digits ≤ exactLimit then .whole (if negative then -digits else digits)
  else ofBinary64 (.ofDecimal negative digits exponent)

instance : ToString Number := ⟨text⟩

end Number

end ExprWire
