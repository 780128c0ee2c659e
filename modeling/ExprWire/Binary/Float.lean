import ExprWire.Binary.Layout
/-!
Floating-point numbers of 32 and 64 bits, held by their bit pattern, so that two numbers are equal
exactly when their words are.
-/

namespace ExprWire

def Binary.single : Binary.Layout := ⟨23, 8⟩

def Binary.double : Binary.Layout := ⟨52, 11⟩

structure Binary32 where
  bits : UInt32
  deriving DecidableEq, Repr, Inhabited

structure Binary64 where
  bits : UInt64
  deriving DecidableEq, Repr, Inhabited

def Binary32.widen (x : Binary32) : Binary64 :=
  ⟨UInt64.ofNat (Binary.convert Binary.single Binary.double x.bits.toNat)⟩

namespace Binary64

def narrow (x : Binary64) : Binary32 :=
  ⟨UInt32.ofNat (Binary.convert Binary.double Binary.single x.bits.toNat)⟩

def isNegative (x : Binary64) : Bool := Binary.double.signWeight ≤ x.bits.toNat

def magnitude (x : Binary64) : Nat := x.bits.toNat % Binary.double.signWeight

def isNaN (x : Binary64) : Bool := Binary.double.infinity < x.magnitude

def isFinite (x : Binary64) : Bool := x.magnitude < Binary.double.infinity

def ofMagnitude (negative : Bool) (magnitude : Nat) : Binary64 :=
  ⟨UInt64.ofNat (if negative then Binary.double.signWeight + magnitude else magnitude)⟩

def ofRatio (negative : Bool) (num den : Nat) : Binary64 :=
  ofMagnitude negative (Binary.double.nearest num den)

def ofInt (n : Int) : Binary64 := ofRatio (n < 0) n.natAbs 1

def toInt? (x : Binary64) : Option Int :=
  if x.isFinite then
    let (num, den) := Binary.double.ratio x.magnitude
    if num % den = 0 then
      let n : Int := (num / den : Nat)
      some (if x.isNegative then -n else n)
    else none
  else none

end Binary64

end ExprWire
