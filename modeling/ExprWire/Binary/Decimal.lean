import ExprWire.Binary.Float
/-!
Decimal text of floating-point numbers: the fewest digits that read back as the number, and of those
the digits nearest to it. The text is positional from 1e-6 up to 1e21 and scientific outside.
-/

namespace ExprWire.Binary

structure Decimal where
  digits : Nat
  exponent : Int
  deriving DecidableEq, Repr

def powerOfTen (n : Nat) : Nat := Nat.pow 10 n

def digitCount (n : Nat) : Nat := (Nat.toDigits 10 n).length

/-- The least `n` such that a positive quotient lies below ten to the power `n`. -/
def decimalOrder (num den : Nat) : Int :=
  if den ≤ num then digitCount (num / den)
  else
    let guess := digitCount (den / num) - 1
    if num * powerOfTen guess < den then -(guess : Int) else 1 - (guess : Int)

namespace Decimal

def strip : Nat → Decimal → Decimal
  | 0, d => d
  | fuel + 1, d =>
      if d.digits % 10 = 0 then strip fuel ⟨d.digits / 10, d.exponent + 1⟩ else d

def compareRatio (d : Decimal) (num den : Nat) : Ordering :=
  compare (d.digits * powerOfTen d.exponent.toNat * den) (num * powerOfTen (-d.exponent).toNat)

end Decimal

/-- The numbers that round to a positive finite one: four times its significand, the two ends on the
same scale, and the exponent of that scale. -/
structure Interval where
  low : Nat
  mid : Nat
  high : Nat
  closed : Bool
  exponent : Int

def Layout.interval (layout : Layout) (magnitude : Nat) : Interval :=
  let m := layout.significand magnitude
  let below := magnitude % layout.hiddenBit = 0 ∧ layout.hiddenBit < magnitude
  ⟨4 * m - (if below then 1 else 2), 4 * m, 4 * m + 2, m % 2 = 0, layout.exponent magnitude - 2⟩

def Interval.contains (i : Interval) (d : Decimal) : Bool :=
  let (low, den) := scale i.low 1 i.exponent
  let (high, _) := scale i.high 1 i.exponent
  let fromLow := d.compareRatio low den
  let toHigh := d.compareRatio high den
  if i.closed then fromLow.isGE && toHigh.isLE else fromLow.isGT && toHigh.isLT

/-- The nearer of the two decimals on a grid around the middle, if one lies in the interval. -/
def Interval.onGrid? (i : Interval) (exponent : Int) : Option Decimal :=
  let (num, den) := scale i.mid 1 i.exponent
  let n := num * powerOfTen (-exponent).toNat
  let d := den * powerOfTen exponent.toNat
  let lower : Decimal := ⟨n / d, exponent⟩
  let upper : Decimal := ⟨n / d + 1, exponent⟩
  let nearest : Decimal := ⟨divHalfEven n d, exponent⟩
  match i.contains lower, i.contains upper with
  | true, true => some nearest
  | true, false => some lower
  | false, true => some upper
  | false, false => none

def Interval.shortestFrom (i : Interval) (order : Int) : Nat → Nat → Option Decimal
  | 0, _ => none
  | fuel + 1, digits =>
      match i.onGrid? (order - digits) with
      | some d => some d
      | none => i.shortestFrom order fuel (digits + 1)

def Layout.shortest (layout : Layout) (magnitude : Nat) : Decimal :=
  let i := layout.interval magnitude
  let (num, den) := scale i.mid 1 i.exponent
  let found := i.shortestFrom (decimalOrder num den) 17 1
  (found.getD ⟨0, 0⟩).strip 20

def Decimal.text (d : Decimal) : String :=
  let ds := Nat.toDigits 10 d.digits
  let count := ds.length
  let point : Int := d.exponent + count
  if 21 < point ∨ point ≤ -6 then
    let mantissa := match ds with
      | [] => []
      | [x] => [x]
      | x :: xs => x :: '.' :: xs
    let power := point - 1
    let sign := if power < 0 then "e-" else "e+"
    String.ofList mantissa ++ sign ++ toString power.natAbs
  else if point ≤ 0 then
    "0." ++ String.ofList (List.replicate point.natAbs '0' ++ ds)
  else if count ≤ point.toNat then
    String.ofList (ds ++ List.replicate (point.toNat - count) '0')
  else
    String.ofList (ds.take point.toNat ++ '.' :: ds.drop point.toNat)

end ExprWire.Binary

namespace ExprWire

def Binary64.text (x : Binary64) : String :=
  if x.isNaN then "NaN"
  else if x.magnitude = 0 then "0"
  else
    let sign := if x.isNegative then "-" else ""
    if x.isFinite then sign ++ (Binary.double.shortest x.magnitude).text
    else sign ++ "Infinity"

/-- The number nearest to `digits * 10 ^ exponent`. Exponents far outside the range give zero or
infinity without any power being computed. -/
def Binary64.ofDecimal (negative : Bool) (digits : Nat) (exponent : Int) : Binary64 :=
  let order : Int := exponent + Binary.digitCount digits
  if digits = 0 ∨ order < -400 then ofMagnitude negative 0
  else if 400 < order then ofMagnitude negative Binary.double.infinity
  else
    ofRatio negative (digits * Binary.powerOfTen exponent.toNat)
      (Binary.powerOfTen (-exponent).toNat)

end ExprWire
