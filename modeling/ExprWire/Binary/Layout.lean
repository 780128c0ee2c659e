/-!
Binary interchange formats of floating-point numbers. A magnitude is the word without its sign bit;
`nearest` gives the magnitude closest to a quotient of natural numbers, and `convert` moves a word
from one format to another.
-/

namespace ExprWire.Binary

structure Layout where
  fractionBits : Nat
  exponentBits : Nat
  deriving DecidableEq, Repr

/-- The quotient rounded to the nearest integer; a half goes to the even neighbour. -/
def divHalfEven (num den : Nat) : Nat :=
  let q := num / den
  let r := num % den
  if 2 * r < den then q
  else if den < 2 * r then q + 1
  else q + q % 2

def scale (num den : Nat) (exponent : Int) : Nat × Nat :=
  (num <<< exponent.toNat, den <<< (-exponent).toNat)

def floorLog2 (num den : Nat) : Int :=
  let guess : Int := num.log2 - den.log2
  let (n, d) := scale num den (-guess)
  if n < d then guess - 1 else guess

namespace Layout

variable (layout : Layout)

def signWeight : Nat := 1 <<< (layout.fractionBits + layout.exponentBits)

def hiddenBit : Nat := 1 <<< layout.fractionBits

/-- The magnitude of infinity; greater ones are not numbers. -/
def infinity : Nat := (1 <<< layout.exponentBits - 1) <<< layout.fractionBits

def lowest : Int :=
  1 - (1 <<< (layout.exponentBits - 1) - 1 : Nat) - layout.fractionBits

def significand (magnitude : Nat) : Nat :=
  if magnitude < layout.hiddenBit then magnitude
  else layout.hiddenBit + magnitude % layout.hiddenBit

def exponent (magnitude : Nat) : Int :=
  layout.lowest + (magnitude / layout.hiddenBit - 1 : Nat)

def ratio (magnitude : Nat) : Nat × Nat :=
  scale (layout.significand magnitude) 1 (layout.exponent magnitude)

/-- The magnitude nearest to a quotient; of two, the even one; infinity beyond the range. -/
def nearest (num den : Nat) : Nat :=
  if num = 0 then 0
  else
    let unit := max layout.lowest (floorLog2 num den - layout.fractionBits)
    let (n, d) := scale num den (-unit)
    min layout.infinity
      ((unit - layout.lowest).toNat * layout.hiddenBit + divHalfEven n d)

end Layout

/-- A payload cut or widened to the target's fraction; one that would vanish becomes the quiet
bit. -/
def movePayload (source target : Layout) (payload : Nat) : Nat :=
  if source.fractionBits ≤ target.fractionBits then
    payload <<< (target.fractionBits - source.fractionBits)
  else
    let kept := payload >>> (source.fractionBits - target.fractionBits)
    if kept = 0 then 1 <<< (target.fractionBits - 1) else kept

def convert (source target : Layout) (word : Nat) : Nat :=
  let sign := word / source.signWeight % 2
  let magnitude := word % source.signWeight
  let moved :=
    if magnitude < source.infinity then
      let (num, den) := source.ratio magnitude
      target.nearest num den
    else if magnitude = source.infinity then target.infinity
    else target.infinity + movePayload source target (magnitude - source.infinity)
  sign * target.signWeight + moved

end ExprWire.Binary
