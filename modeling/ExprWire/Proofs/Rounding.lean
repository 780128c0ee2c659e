import ExprWire.Value
/-!
Numbers that fit the double format are rounded to themselves, so a number of 32 bits, be it an
integer or floating-point, can be told from the double that stands for it; and one that was widened
is narrowed to itself.
-/

namespace ExprWire.Binary

theorem log2_shiftLeft {n : Nat} (pos : 0 < n) (k : Nat) : (n <<< k).log2 = n.log2 + k := by
  induction k with
  | zero => rfl
  | succ k ih =>
      have shifted : n <<< k ≠ 0 := by
        rw [Ne, Nat.shiftLeft_eq_zero_iff]
        omega
      rw [Nat.shiftLeft_succ, Nat.log2_two_mul shifted, ih]
      omega

theorem shiftLeft_lt_shiftLeft {a b : Nat} (less : a < b) (k : Nat) : a <<< k < b <<< k := by
  induction k with
  | zero => exact less
  | succ k ih =>
      rw [Nat.shiftLeft_succ, Nat.shiftLeft_succ]
      omega

theorem shiftLeft_injective {a b k : Nat} (same : a <<< k = b <<< k) : a = b := by
  rcases Nat.lt_trichotomy a b with less | equal | greater
  · exact absurd same (Nat.ne_of_lt (shiftLeft_lt_shiftLeft less k))
  · exact equal
  · exact absurd same (Nat.ne_of_gt (shiftLeft_lt_shiftLeft greater k))

theorem floorLog2_scale {s : Nat} (pos : 0 < s) (e : Int) :
    floorLog2 (scale s 1 e).1 (scale s 1 e).2 = s.log2 + e := by
  have guess : ((s <<< e.toNat).log2 : Int) - ((1 <<< (-e).toNat).log2 : Nat) = s.log2 + e := by
    rw [log2_shiftLeft pos, log2_shiftLeft Nat.one_pos, show Nat.log2 1 = 0 by decide]
    omega
  have enough : ¬ s <<< e.toNat <<< (-(s.log2 + e : Int)).toNat <
      1 <<< (-e).toNat <<< (-(-(s.log2 + e : Int))).toNat := by
    have least : 1 <<< s.log2 ≤ s := by
      rw [Nat.one_shiftLeft]
      exact Nat.log2_self_le (by omega)
    have exponents : (-e).toNat + (-(-(s.log2 + e : Int))).toNat =
        s.log2 + (e.toNat + (-(s.log2 + e : Int)).toNat) := by omega
    rw [← Nat.shiftLeft_add, ← Nat.shiftLeft_add, exponents, Nat.shiftLeft_add _ s.log2, Nat.not_lt]
    rcases Nat.lt_or_eq_of_le least with less | equal
    · exact Nat.le_of_lt (shiftLeft_lt_shiftLeft less _)
    · exact Nat.le_of_eq (congrArg (· <<< _) equal)
  simp only [floorLog2, scale, guess, if_neg enough]

theorem divHalfEven_shiftLeft (q k : Nat) : divHalfEven (q <<< k) (1 <<< k) = q := by
  have pos : 0 < 1 <<< k := Nat.shiftLeft_pos_iff.mpr Nat.one_pos
  have product : q <<< k = q * 1 <<< k := by rw [Nat.shiftLeft_eq, Nat.one_shiftLeft]
  have quotient : q <<< k / 1 <<< k = q := by rw [product, Nat.mul_div_cancel _ pos]
  have remainder : q <<< k % 1 <<< k = 0 := by rw [product, Nat.mul_mod_left]
  simp only [divHalfEven]
  rw [quotient, remainder, if_pos (by omega)]

def aligned (s : Nat) : Nat := s <<< (52 - s.log2)

theorem aligned_bounds {s : Nat} (pos : 0 < s) (small : s.log2 ≤ 52) :
    4503599627370496 ≤ aligned s ∧ aligned s < 9007199254740992 := by
  have top : (aligned s).log2 = 52 := by
    rw [aligned, log2_shiftLeft pos]
    omega
  have nonzero : aligned s ≠ 0 := by
    rw [aligned, Ne, Nat.shiftLeft_eq_zero_iff]
    omega
  have bounds := (Nat.log2_eq_iff nonzero).mp top
  exact ⟨bounds.1, bounds.2⟩

theorem nearest_scale {s : Nat} {e : Int} (pos : 0 < s) (small : s.log2 ≤ 52)
    (low : -1022 ≤ s.log2 + e) (high : s.log2 + e ≤ 1023) :
    double.nearest (scale s 1 e).1 (scale s 1 e).2 =
      (s.log2 + e + 1022).toNat * 4503599627370496 + aligned s := by
  have bounds := aligned_bounds pos small
  have nonzero : (scale s 1 e).1 ≠ 0 := by
    rw [scale, Ne, Nat.shiftLeft_eq_zero_iff]
    omega
  have unit : max double.lowest (s.log2 + e - double.fractionBits) = s.log2 + e - 52 := by
    have lowest : double.lowest = -1074 := by decide
    have width : (double.fractionBits : Int) = 52 := rfl
    rw [lowest, width]
    omega
  have exponents : e.toNat + (-(s.log2 + e - 52 : Int)).toNat =
      52 - s.log2 + ((-e).toNat + (-(-(s.log2 + e - 52 : Int))).toNat) := by omega
  have rounded : divHalfEven (s <<< e.toNat <<< (-(s.log2 + e - 52 : Int)).toNat)
      (1 <<< (-e).toNat <<< (-(-(s.log2 + e - 52 : Int))).toNat) = aligned s := by
    rw [← Nat.shiftLeft_add, ← Nat.shiftLeft_add, exponents, Nat.shiftLeft_add,
      divHalfEven_shiftLeft, aligned]
  have place : (s.log2 + e - 52 - double.lowest : Int).toNat = (s.log2 + e + 1022).toNat := by
    have lowest : double.lowest = -1074 := by decide
    rw [lowest]
    omega
  have hidden : double.hiddenBit = 4503599627370496 := by decide
  have infinity : double.infinity = 9218868437227405312 := by decide
  rw [Layout.nearest, if_neg nonzero]
  simp only [floorLog2_scale pos, unit]
  simp only [scale]
  rw [rounded, place, hidden, infinity]
  apply Nat.min_eq_right
  have exponent : (s.log2 + e + 1022).toNat ≤ 2045 := by omega
  calc
    _ ≤ 2045 * 4503599627370496 + aligned s :=
      Nat.add_le_add_right (Nat.mul_le_mul_right _ exponent) _
    _ ≤ 9218868437227405312 := by omega

theorem nearest_zero (den : Nat) : double.nearest 0 den = 0 := by
  rw [Layout.nearest, if_pos rfl]

theorem nearest_scale_inj {s t : Nat} {e f : Int} (pos : 0 < s) (pos' : 0 < t)
    (small : s.log2 ≤ 52) (small' : t.log2 ≤ 52) (low : -1022 ≤ s.log2 + e)
    (low' : -1022 ≤ t.log2 + f) (high : s.log2 + e ≤ 1023) (high' : t.log2 + f ≤ 1023)
    (same : double.nearest (scale s 1 e).1 (scale s 1 e).2 =
      double.nearest (scale t 1 f).1 (scale t 1 f).2) :
    (s.log2 : Int) + e = t.log2 + f ∧ aligned s = aligned t := by
  have left := aligned_bounds pos small
  have right := aligned_bounds pos' small'
  rw [nearest_scale pos small low high, nearest_scale pos' small' low' high'] at same
  omega

theorem eq_of_aligned_eq {s t : Nat} (lengths : s.log2 = t.log2) (same : aligned s = aligned t) :
    s = t := by
  rw [aligned, aligned, lengths] at same
  exact shiftLeft_injective same

def moved (source target : Layout) (magnitude : Nat) : Nat :=
  if magnitude < source.infinity then
    target.nearest (source.ratio magnitude).1 (source.ratio magnitude).2
  else if magnitude = source.infinity then target.infinity
  else target.infinity + movePayload source target (magnitude - source.infinity)

theorem convert_eq (source target : Layout) (word : Nat) : convert source target word =
    word / source.signWeight % 2 * target.signWeight +
      moved source target (word % source.signWeight) := rfl

theorem log2_eq_of_bounds {n k : Nat} (least : 1 <<< k ≤ n) (most : n < 1 <<< (k + 1)) :
    n.log2 = k := by
  have pos : 0 < 1 <<< k := Nat.shiftLeft_pos_iff.mpr Nat.one_pos
  rw [Nat.one_shiftLeft] at least most
  exact (Nat.log2_eq_iff (by rw [← Nat.one_shiftLeft] at least; omega)).mpr ⟨least, most⟩

theorem log2_lt_of_lt {n k : Nat} (pos : 0 < n) (most : n < 1 <<< k) : n.log2 < k := by
  rw [Nat.one_shiftLeft] at most
  exact (Nat.log2_lt (by omega)).mpr most

theorem single_cases (magnitude : Nat) :
    (magnitude < 8388608 ∧ single.significand magnitude = magnitude ∧
      single.exponent magnitude = -149) ∨
    (8388608 ≤ magnitude ∧ single.significand magnitude = 8388608 + magnitude % 8388608 ∧
      single.exponent magnitude = -150 + (magnitude / 8388608 : Nat) ∧
      (single.significand magnitude).log2 = 23) := by
  have hidden : single.hiddenBit = 8388608 := by decide
  have lowest : single.lowest = -149 := by decide
  rw [Layout.significand, Layout.exponent, hidden, lowest]
  by_cases small : magnitude < 8388608
  · left
    rw [if_pos small]
    omega
  · right
    have leading : (8388608 + magnitude % 8388608).log2 = 23 := by
      apply log2_eq_of_bounds
      · change 8388608 ≤ _
        omega
      · change _ < 16777216
        omega
    rw [if_neg small]
    exact ⟨by omega, rfl, by omega, leading⟩

theorem single_bounds {magnitude : Nat} (pos : 0 < magnitude) (finite : magnitude < 2139095040) :
    0 < single.significand magnitude ∧ (single.significand magnitude).log2 ≤ 23 ∧
      -149 ≤ (single.significand magnitude).log2 + single.exponent magnitude ∧
      (single.significand magnitude).log2 + single.exponent magnitude ≤ 127 := by
  rcases single_cases magnitude with ⟨small, significand, exponent⟩ |
    ⟨large, significand, exponent, leading⟩
  · have := log2_lt_of_lt (k := 23) pos small
    rw [significand, exponent]
    omega
  · rw [leading, significand, exponent]
    omega

theorem widened_zero : moved single double 0 = 0 := by decide

theorem widened_infinity : moved single double 2139095040 = 9218868437227405312 := by decide

theorem widened_nan {m : Nat} (nan : 2139095040 < m) :
    moved single double m = 9218868437227405312 + (m - 2139095040) * 536870912 := by
  have infinity : single.infinity = 2139095040 := by decide
  have infinity' : double.infinity = 9218868437227405312 := by decide
  have payload (x : Nat) : movePayload single double x = x * 536870912 := Nat.shiftLeft_eq x 29
  rw [moved, infinity, if_neg (by omega), if_neg (by omega), infinity', payload]

theorem widened_finite {m : Nat} (pos : 0 < m) (finite : m < 2139095040) :
    ∃ place : Nat, moved single double m =
        place * 4503599627370496 + aligned (single.significand m) ∧ place ≤ 1149 ∧
      (place : Int) - 1022 = (single.significand m).log2 + single.exponent m := by
  have infinity : single.infinity = 2139095040 := by decide
  rcases single_bounds pos finite with ⟨positive, leading, low, high⟩
  refine ⟨((single.significand m).log2 + single.exponent m + 1022).toNat, ?_, by omega, by omega⟩
  rw [moved, infinity, if_pos finite]
  exact nearest_scale positive (by omega) (by omega) (by omega)

theorem widened_lt {m : Nat} (bound : m < 2147483648) :
    moved single double m < 9223372036854775808 := by
  rcases Nat.eq_zero_or_pos m with rfl | pos
  · rw [widened_zero]
    decide
  · rcases Nat.lt_trichotomy m 2139095040 with finite | rfl | nan
    · rcases single_bounds pos finite with ⟨positive, leading, -⟩
      have bounds := aligned_bounds positive (by omega)
      rcases widened_finite pos finite with ⟨place, widened, least, -⟩
      omega
    · rw [widened_infinity]
      decide
    · rw [widened_nan nan]
      omega

theorem convert_lt (word : Nat) : convert single double word < 18446744073709551616 := by
  have weight : single.signWeight = 2147483648 := by decide
  have weight' : double.signWeight = 9223372036854775808 := by decide
  rw [convert_eq, weight, weight']
  have := widened_lt (Nat.mod_lt word (show 0 < 2147483648 by decide))
  omega

theorem single_nearest {s k : Nat} {e : Int} (pos : 0 < s)
    (unit : max (-149) (s.log2 + e - 23) = e)
    (finite : (e + 149).toNat * 8388608 + s ≤ 2139095040) :
    single.nearest (scale (s <<< k) 1 (e - k)).1 (scale (s <<< k) 1 (e - k)).2 =
      (e + 149).toNat * 8388608 + s := by
  have shifted : 0 < s <<< k := Nat.shiftLeft_pos_iff.mpr pos
  have nonzero : (scale (s <<< k) 1 (e - k)).1 ≠ 0 := by
    rw [scale, Ne, Nat.shiftLeft_eq_zero_iff]
    omega
  have place : max single.lowest (((s <<< k).log2 : Int) + (e - k) - single.fractionBits) = e := by
    have lowest : single.lowest = -149 := by decide
    have width : (single.fractionBits : Int) = 23 := rfl
    rw [log2_shiftLeft pos, lowest, width]
    omega
  have exponents : k + ((e - k).toNat + (-e).toNat) = (-(e - k)).toNat + (-(-e)).toNat := by omega
  have rounded : divHalfEven (s <<< k <<< (e - k).toNat <<< (-e).toNat)
      (1 <<< (-(e - k)).toNat <<< (-(-e)).toNat) = s := by
    rw [← Nat.shiftLeft_add, ← Nat.shiftLeft_add, exponents, ← Nat.shiftLeft_add,
      divHalfEven_shiftLeft]
  have hidden : single.hiddenBit = 8388608 := by decide
  have infinity : single.infinity = 2139095040 := by decide
  have lowest : e - single.lowest = e + 149 := by
    have lowest : single.lowest = -149 := by decide
    omega
  rw [Layout.nearest, if_neg nonzero]
  simp only [floorLog2_scale shifted, place]
  simp only [scale]
  rw [rounded, hidden, infinity, lowest]
  exact Nat.min_eq_right finite

theorem double_ratio {place digits : Nat} (low : 4503599627370496 ≤ digits)
    (high : digits < 9007199254740992) :
    double.ratio (place * 4503599627370496 + digits) = scale digits 1 ((place : Int) - 1074) := by
  have hidden : double.hiddenBit = 4503599627370496 := by decide
  have lowest : double.lowest = -1074 := by decide
  have significand : double.significand (place * 4503599627370496 + digits) = digits := by
    rw [Layout.significand, hidden, if_neg (by omega)]
    omega
  have exponent : double.exponent (place * 4503599627370496 + digits) = (place : Int) - 1074 := by
    rw [Layout.exponent, hidden, lowest]
    omega
  rw [Layout.ratio, significand, exponent]

theorem movePayload_narrow {payload : Nat} (nonzero : payload ≠ 0) :
    movePayload double single (payload * 536870912) = payload := by
  have wider : ¬double.fractionBits ≤ single.fractionBits := by decide
  have bits : double.fractionBits - single.fractionBits = 29 := rfl
  have kept : (payload * 536870912) >>> 29 = payload := by
    rw [Nat.shiftRight_eq_div_pow]
    exact Nat.mul_div_cancel payload (by decide)
  rw [movePayload, if_neg wider, bits]
  simp only [kept, if_neg nonzero]

theorem narrowed_widened (m : Nat) : moved double single (moved single double m) = m := by
  have infinity : double.infinity = 9218868437227405312 := by decide
  have infinity' : single.infinity = 2139095040 := by decide
  rcases Nat.eq_zero_or_pos m with rfl | pos
  · rw [widened_zero]
    decide
  · rcases Nat.lt_trichotomy m 2139095040 with finite | rfl | nan
    · rcases single_bounds pos finite with ⟨positive, leading, -⟩
      have bounds := aligned_bounds positive (by omega)
      rcases widened_finite pos finite with ⟨place, widened, least, placed⟩
      -- the double has the same digits, moved up as far as its exponent has come down
      have exponent : (place : Int) - 1074 =
          single.exponent m - (52 - (single.significand m).log2 : Nat) := by omega
      rw [widened, moved, infinity, if_pos (by omega), double_ratio bounds.1 bounds.2, exponent,
        aligned]
      rcases single_cases m with ⟨small, significand, lowest⟩ |
        ⟨large, significand, exponent, top⟩
      · have := log2_lt_of_lt (k := 23) pos small
        rw [significand, lowest, single_nearest pos (by omega) (by omega)]
        omega
      · rw [single_nearest positive (by omega) (by omega)]
        omega
    · rw [widened_infinity]
      decide
    · rw [widened_nan nan, moved, infinity, infinity', if_neg (by omega), if_neg (by omega),
        Nat.add_sub_cancel_left, movePayload_narrow (by omega)]
      omega

theorem convert_convert {word : Nat} (bound : word < 4294967296) :
    convert double single (convert single double word) = word := by
  have weight : single.signWeight = 2147483648 := by decide
  have weight' : double.signWeight = 9223372036854775808 := by decide
  have least := widened_lt (Nat.mod_lt word (show 0 < 2147483648 by decide))
  have same := narrowed_widened (word % 2147483648)
  rw [convert_eq single double, weight, weight']
  generalize moved single double (word % 2147483648) = wide at least same
  have sign : (word / 2147483648 % 2 * 9223372036854775808 + wide) / 9223372036854775808 % 2 =
      word / 2147483648 % 2 := by omega
  have magnitude : (word / 2147483648 % 2 * 9223372036854775808 + wide) % 9223372036854775808 =
      wide := by omega
  rw [convert_eq, weight, weight', sign, magnitude, same]
  omega

end ExprWire.Binary

namespace ExprWire

theorem Binary32.narrow_widen (x : Binary32) : x.widen.narrow = x := by
  have word : x.widen.bits.toNat = Binary.convert Binary.single Binary.double x.bits.toNat :=
    UInt64.toNat_ofNat_of_lt' (Binary.convert_lt _)
  rw [Binary64.narrow, word, Binary.convert_convert x.bits.toNat_lt, UInt32.ofNat_toNat]

theorem Binary32.widen_injective {x y : Binary32} (same : x.widen = y.widen) : x = y := by
  rw [← x.narrow_widen, same, y.narrow_widen]

namespace Binary64

theorem ofMagnitude_inj {negative negative' : Bool} {m n : Nat} (bound : m < 9223372036854775808)
    (bound' : n < 9223372036854775808) (same : ofMagnitude negative m = ofMagnitude negative' n) :
    negative = negative' ∧ m = n := by
  have weight : Binary.double.signWeight = 9223372036854775808 := by decide
  have words := congrArg (fun z : Binary64 => z.bits.toNat) same
  simp only [ofMagnitude, weight, UInt64.toNat_ofNat'] at words
  cases negative <;> cases negative' <;>
    simp only [Bool.false_eq_true, if_false, if_true, true_and, reduceCtorEq, false_and] at words ⊢ <;>
    omega

theorem nearest_one_bounds {n : Nat} (pos : 0 < n) (small : n < 4294967296) :
    n.log2 ≤ 31 ∧ 0 < Binary.double.nearest n 1 ∧
      Binary.double.nearest n 1 < 9223372036854775808 := by
  have leading := Binary.log2_lt_of_lt (k := 32) pos small
  have aligned := Binary.aligned_bounds pos (by omega)
  have rounded := Binary.nearest_scale (e := 0) pos (by omega) (by omega) (by omega)
  have exponent : (n.log2 + 0 + 1022 : Int).toNat ≤ 1053 := by omega
  have scaled := Nat.mul_le_mul_right 4503599627370496 exponent
  have same : Binary.double.nearest n 1 = _ := rounded
  rw [same]
  omega

theorem nearest_one_inj {n m : Nat} (small : n < 4294967296) (small' : m < 4294967296)
    (same : Binary.double.nearest n 1 = Binary.double.nearest m 1) : n = m := by
  rcases Nat.eq_zero_or_pos n with rfl | pos <;> rcases Nat.eq_zero_or_pos m with rfl | pos'
  · rfl
  · have := nearest_one_bounds pos' small'
    rw [Binary.nearest_zero] at same
    omega
  · have := nearest_one_bounds pos small
    rw [Binary.nearest_zero] at same
    omega
  · have left := nearest_one_bounds pos small
    have right := nearest_one_bounds pos' small'
    obtain ⟨exponents, significands⟩ := Binary.nearest_scale_inj (e := 0) (f := 0) pos pos'
      (by omega) (by omega) (by omega) (by omega) (by omega) (by omega) same
    exact Binary.eq_of_aligned_eq (by omega) significands

theorem nearest_one_lt {n : Nat} (small : n < 4294967296) :
    Binary.double.nearest n 1 < 9223372036854775808 := by
  rcases Nat.eq_zero_or_pos n with rfl | pos
  · rw [Binary.nearest_zero]
    decide
  · exact (nearest_one_bounds pos small).2.2

theorem ofInt_inj {n m : Int} (small : n.natAbs < 4294967296) (small' : m.natAbs < 4294967296)
    (same : ofInt n = ofInt m) : n = m := by
  rcases ofMagnitude_inj (nearest_one_lt small) (nearest_one_lt small') same with
    ⟨signs, magnitudes⟩
  have absolute := nearest_one_inj small small' magnitudes
  have negative : n < 0 ↔ m < 0 := decide_eq_decide.mp signs
  omega

theorem ofInt_ne_minusZero {n : Int} (small : n.natAbs < 4294967296) :
    ofInt n ≠ ofMagnitude true 0 := by
  intro same
  rcases ofMagnitude_inj (nearest_one_lt small) (by decide) same with ⟨sign, magnitude⟩
  have absolute := nearest_one_inj (m := 0) small (by decide)
    (magnitude.trans (Binary.nearest_zero 1).symm)
  have negative : n < 0 := of_decide_eq_true sign
  omega

end Binary64

theorem Integer32.toBinary64_injective {n m : Integer32} (same : n.toBinary64 = m.toBinary64) :
    n = m := by
  have small (k : Int32) : k.toInt.natAbs < 4294967296 := by
    have low := k.le_toInt
    have high := k.toInt_lt
    omega
  cases n with
  | word n =>
      cases m with
      | word m => exact congrArg Integer32.word (Int32.toInt_inj.mp
          (Binary64.ofInt_inj (small n) (small m) same))
      | minusZero => exact absurd same (Binary64.ofInt_ne_minusZero (small n))
  | minusZero =>
      cases m with
      | word m => exact absurd same.symm (Binary64.ofInt_ne_minusZero (small m))
      | minusZero => rfl

theorem Binary64.ofInt_bool_injective {b c : Bool}
    (same : Binary64.ofInt b.toInt = Binary64.ofInt c.toInt) : b = c := by
  have whole := Binary64.ofInt_inj (by cases b <;> decide) (by cases c <;> decide) same
  cases b <;> cases c <;> first | rfl | exact absurd whole (by decide)

end ExprWire
