import ExprWire.Bytes
import ExprWire.Number
/-! Unsigned numerals in base 128, least significant digit first; all but the last digit carry the
continuation bit. -/

namespace ExprWire.Varint

def limit : Nat := 0xffffffff

def encode (n : Nat) : Bytes :=
  if n < 128 then [UInt8.ofNat n] else UInt8.ofNat (128 + n % 128) :: encode (n / 128)
termination_by n

def value? (x : Number) : Option Nat :=
  match x.toNat? with
  | some n => if n ≤ limit then some n else none
  | none => none

end ExprWire.Varint
