import ExprWire.Crc32
import ExprWire.Proofs.Bytes
/-!
The checksum as polynomial division. A division step is linear over exclusive or and loses nothing,
so the table does the work of eight steps, bytes before and after a place keep registers apart, and
up to four bytes in that place are told apart by the register behind them.
-/

namespace ExprWire.Crc32

variable {n : Nat} {register other : UInt32}

def lowBit (register : UInt32) : Bool := register.toBitVec.getLsbD 0

theorem lowBit_eq (register : UInt32) : lowBit register = decide (register.toNat % 2 = 1) :=
  Nat.testBit_zero register.toNat

theorem lowBit_xor (register other : UInt32) :
    lowBit (register ^^^ other) = (lowBit register ^^ lowBit other) := BitVec.getLsbD_xor

theorem low_eq_one_iff (register : UInt32) : register &&& 1 = 1 ↔ lowBit register = true := by
  rw [lowBit_eq, decide_eq_true_iff, ← UInt32.toNat_inj, UInt32.toNat_and]
  exact iff_of_eq (congrArg (· = 1) (Nat.and_one_is_mod register.toNat))

theorem toNat_half (register : UInt32) : (register >>> 1).toNat = register.toNat / 2 :=
  UInt32.toNat_shiftRight register 1

theorem half_xor (register other : UInt32) :
    (register ^^^ other) >>> 1 = (register >>> 1) ^^^ (other >>> 1) := by
  rw [← UInt32.toBitVec_inj]
  exact BitVec.ushiftRight_xor_distrib register.toBitVec other.toBitVec 1

theorem shift_eq (register : UInt32) :
    shift register = (if lowBit register then polynomial else 0) ^^^ (register >>> 1) := by
  unfold shift
  by_cases odd : lowBit register = true
  · rw [if_pos ((low_eq_one_iff register).mpr odd), if_pos odd]
  · rw [if_neg fun one => odd ((low_eq_one_iff register).mp one), if_neg odd, UInt32.zero_xor]

theorem shift_xor (register other : UInt32) :
    shift (register ^^^ other) = shift register ^^^ shift other := by
  have carry : (if lowBit (register ^^^ other) then polynomial else 0) =
      (if lowBit register then polynomial else 0) ^^^ (if lowBit other then polynomial else 0) := by
    rw [lowBit_xor]
    cases lowBit register <;> cases lowBit other <;> decide
  rw [shift_eq, shift_eq register, shift_eq other, carry, half_xor]
  ac_rfl

theorem eq_zero_of_shift_eq_zero (zero : shift register = 0) : register = 0 := by
  have half : (register >>> 1).toNat < 2147483648 := by
    have := register.toNat_lt
    rw [toNat_half]
    omega
  rw [shift_eq] at zero
  have even : lowBit register = false := by
    cases odd : lowBit register with
    | false => rfl
    | true =>
        rw [odd, if_pos rfl, UInt32.xor_eq_zero_iff] at zero
        rw [← zero] at half
        exact absurd half (by decide)
  rw [even, if_neg Bool.false_ne_true, UInt32.zero_xor] at zero
  have none : 0 = register.toNat / 2 := by
    rw [← toNat_half, zero]
    rfl
  rw [lowBit_eq, decide_eq_false_iff_not] at even
  apply UInt32.toNat_inj.mp
  change register.toNat = 0
  omega

theorem shiftBy_xor (n : Nat) (register other : UInt32) :
    shiftBy n (register ^^^ other) = shiftBy n register ^^^ shiftBy n other := by
  induction n generalizing register other with
  | zero => rfl
  | succ n ih => rw [shiftBy, shift_xor, ih, shiftBy, shiftBy]

theorem shiftBy_add (m n : Nat) (register : UInt32) :
    shiftBy (m + n) register = shiftBy n (shiftBy m register) := by
  induction m generalizing register with
  | zero => rw [Nat.zero_add, shiftBy]
  | succ m ih => rw [Nat.succ_add, shiftBy, ih, shiftBy]

theorem eq_zero_of_shiftBy_eq_zero (zero : shiftBy n register = 0) : register = 0 := by
  induction n generalizing register with
  | zero => exact zero
  | succ n ih => exact eq_zero_of_shift_eq_zero (ih zero)

theorem shiftBy_injective (same : shiftBy n register = shiftBy n other) : register = other := by
  rw [← UInt32.xor_eq_zero_iff] at same ⊢
  rw [← shiftBy_xor] at same
  exact eq_zero_of_shiftBy_eq_zero same

theorem shift_ofNat_double (small : 2 * n < 4294967296) :
    shift (UInt32.ofNat (2 * n)) = UInt32.ofNat n := by
  have double : (UInt32.ofNat (2 * n)).toNat = 2 * n := UInt32.toNat_ofNat_of_lt' small
  have single : (UInt32.ofNat n).toNat = n :=
    UInt32.toNat_ofNat_of_lt' (show n < 4294967296 by omega)
  have even : lowBit (UInt32.ofNat (2 * n)) = false := by
    rw [lowBit_eq, double, decide_eq_false_iff_not]
    omega
  rw [shift_eq, even, if_neg Bool.false_ne_true, UInt32.zero_xor, ← UInt32.toNat_inj, toNat_half,
    double, single]
  omega

theorem shiftBy_eight_ofNat (small : 256 * n < 4294967296) :
    shiftBy 8 (UInt32.ofNat (256 * n)) = UInt32.ofNat n := by
  have halves : 256 * n = 2 * (2 * (2 * (2 * (2 * (2 * (2 * (2 * n))))))) := by omega
  rw [halves]
  simp only [shiftBy]
  iterate 8 rw [shift_ofNat_double (by omega)]

theorem low_xor_high {low : Nat} (small : low < 256) (n : Nat) :
    low ^^^ (256 * n) = low + 256 * n := by
  apply Nat.eq_of_testBit_eq
  intro i
  have sum : (low + 256 * n).testBit i = if i < 8 then low.testBit i else n.testBit (i - 8) := by
    rw [Nat.add_comm]
    exact Nat.testBit_two_pow_mul_add n (i := 8) small i
  have above : (256 * n).testBit i = (decide (8 ≤ i) && n.testBit (i - 8)) :=
    Nat.testBit_two_pow_mul (i := 8)
  rw [Nat.testBit_xor, sum, above]
  by_cases inside : i < 8
  · rw [if_pos inside, decide_eq_false (Nat.not_le.mpr inside), Bool.false_and, Bool.xor_false]
  · have enough : 8 ≤ i := Nat.not_lt.mp inside
    have none : low.testBit i = false :=
      Nat.testBit_lt_two_pow
        (Nat.lt_of_lt_of_le small (Nat.pow_le_pow_right (n := 2) Nat.two_pos enough))
    rw [if_neg inside, decide_eq_true enough, Bool.true_and, none, Bool.false_xor]

theorem ofNat_low_xor_high {low : Nat} (small : low < 256) (fits : low + 256 * n < 4294967296) :
    UInt32.ofNat low ^^^ UInt32.ofNat (256 * n) = UInt32.ofNat (low + 256 * n) := by
  apply UInt32.toNat_inj.mp
  rw [UInt32.toNat_xor, UInt32.toNat_ofNat_of_lt' (show low < 4294967296 by omega),
    UInt32.toNat_ofNat_of_lt' (show 256 * n < 4294967296 by omega),
    UInt32.toNat_ofNat_of_lt' (show low + 256 * n < 4294967296 from fits), low_xor_high small]

theorem toUInt32_eq_ofNat (byte : UInt8) : byte.toUInt32 = UInt32.ofNat byte.toNat := by
  have small : byte.toNat < 4294967296 := Nat.lt_trans byte.toNat_lt (by decide)
  apply UInt32.toNat_inj.mp
  rw [UInt8.toNat_toUInt32, UInt32.toNat_ofNat_of_lt' small]

theorem step_eq_bitwiseStep (register : UInt32) (byte : UInt8) :
    step register byte = bitwiseStep register byte := by
  have small : register.toNat < 4294967296 := register.toNat_lt
  have split : register =
      register.toUInt8.toUInt32 ^^^ UInt32.ofNat (256 * (register.toNat / 256)) := by
    rw [toUInt32_eq_ofNat, UInt32.toNat_toUInt8]
    change register = UInt32.ofNat (register.toNat % 256) ^^^ _
    rw [ofNat_low_xor_high (Nat.mod_lt _ (by decide)) (by omega), Nat.mod_add_div,
      UInt32.ofNat_toNat]
  have upper : register >>> 8 = UInt32.ofNat (register.toNat / 256) := by
    apply UInt32.toNat_inj.mp
    rw [UInt32.toNat_ofNat_of_lt' (show register.toNat / 256 < 4294967296 by omega)]
    exact (UInt32.toNat_shiftRight register 8).trans (Nat.shiftRight_eq_div_pow register.toNat 8)
  have entry : table.get (register.toUInt8 ^^^ byte).toFin =
      shiftBy 8 (register.toUInt8.toUInt32 ^^^ byte.toUInt32) := by
    rw [← UInt8.toUInt32_xor, toUInt32_eq_ofNat]
    exact Vector.getElem_ofFn _
  rw [step, entry, upper, bitwiseStep]
  calc shiftBy 8 (register.toUInt8.toUInt32 ^^^ byte.toUInt32) ^^^
        UInt32.ofNat (register.toNat / 256)
      = shiftBy 8 (register.toUInt8.toUInt32 ^^^ byte.toUInt32 ^^^
          UInt32.ofNat (256 * (register.toNat / 256))) := by
        rw [shiftBy_xor _ (_ ^^^ _), shiftBy_eight_ofNat (by omega)]
    _ = shiftBy 8 (register.toUInt8.toUInt32 ^^^
          UInt32.ofNat (256 * (register.toNat / 256)) ^^^ byte.toUInt32) := by ac_rfl
    _ = shiftBy 8 (register ^^^ byte.toUInt32) := by rw [← split]

theorem foldl_step_eq (register : UInt32) (bytes : Bytes) :
    bytes.foldl step register = bytes.foldl bitwiseStep register := by
  have same : step = bitwiseStep :=
    funext fun register => funext fun byte => step_eq_bitwiseStep register byte
  rw [same]

theorem checksum_eq (bytes : Bytes) : checksum bytes = remainder bytes := by
  rw [checksum, remainder, foldl_step_eq]

theorem foldl_step_injective {bytes : Bytes}
    (same : bytes.foldl step register = bytes.foldl step other) : register = other := by
  rw [foldl_step_eq, foldl_step_eq] at same
  induction bytes generalizing register other with
  | nil => exact same
  | cons byte bytes ih => exact (UInt32.xor_left_inj byte.toUInt32).mp (shiftBy_injective (ih same))

theorem foldl_step_window (register : UInt32) {window : Bytes} (short : window.length ≤ 4) :
    window.foldl step register =
      shiftBy (8 * window.length) (register ^^^ UInt32.ofNat (Bytes.ofLittleEndian window)) := by
  rw [foldl_step_eq]
  induction window generalizing register with
  | nil => exact (UInt32.xor_zero (a := register)).symm
  | cons byte window ih =>
      have fewer : window.length ≤ 3 := Nat.le_of_succ_le_succ short
      have fits : Bytes.ofLittleEndian window < 16777216 :=
        Nat.lt_of_lt_of_le (Bytes.ofLittleEndian_lt window)
          (Nat.pow_le_pow_right (n := 256) (by decide) fewer)
      have small : byte.toNat < 256 := byte.toNat_lt
      rw [List.foldl_cons, ih _ (Nat.le_succ_of_le fewer), bitwiseStep,
        ← shiftBy_eight_ofNat (by omega), ← shiftBy_xor, ← shiftBy_add, UInt32.xor_assoc,
        toUInt32_eq_ofNat, ofNat_low_xor_high small (by omega), Bytes.ofLittleEndian,
        List.length_cons, Nat.mul_succ, Nat.add_comm 8]

theorem window_injective {window window' : Bytes} (size : window.length = window'.length)
    (short : window.length ≤ 4)
    (same : window.foldl step register = window'.foldl step register) : window = window' := by
  have bound : Nat.pow 256 window.length ≤ 4294967296 :=
    Nat.pow_le_pow_right (n := 256) (by decide) short
  have word (bytes : Bytes) (size : bytes.length = window.length) :
      (UInt32.ofNat (Bytes.ofLittleEndian bytes)).toNat = Bytes.ofLittleEndian bytes := by
    have below := Bytes.ofLittleEndian_lt bytes
    rw [size] at below
    exact UInt32.toNat_ofNat_of_lt' (Nat.lt_of_lt_of_le below bound)
  rw [foldl_step_window register short, foldl_step_window register (size ▸ short), ← size] at same
  have words := congrArg UInt32.toNat ((UInt32.xor_right_inj register).mp (shiftBy_injective same))
  rw [word window rfl, word window' size.symm] at words
  exact Bytes.ofLittleEndian_injective size words

theorem foldl_step_ne (register : UInt32) (before : Bytes) {window window' : Bytes} (after : Bytes)
    (size : window.length = window'.length) (short : window.length ≤ 4)
    (different : window ≠ window') :
    (before ++ (window ++ after)).foldl step register ≠
      (before ++ (window' ++ after)).foldl step register := by
  intro same
  rw [List.foldl_append, List.foldl_append, List.foldl_append, List.foldl_append] at same
  exact different (window_injective size short (foldl_step_injective same))

def residue : UInt32 := shiftBy 32 0xffffffff

theorem checksum_eq_iff {body trailer : Bytes} (size : trailer.length = 4) :
    (checksum body).toNat = Bytes.ofLittleEndian trailer ↔
      (body ++ trailer).foldl step 0xffffffff = residue := by
  have below : Bytes.ofLittleEndian trailer < 4294967296 := by
    have bound := Bytes.ofLittleEndian_lt trailer
    rw [size] at bound
    exact bound
  have word : (UInt32.ofNat (Bytes.ofLittleEndian trailer)).toNat = Bytes.ofLittleEndian trailer :=
    UInt32.toNat_ofNat_of_lt' below
  rw [List.foldl_append, foldl_step_window _ (Nat.le_of_eq size), size, checksum, residue]
  generalize body.foldl step 0xffffffff = register
  have ones : register ^^^ ~~~register = 0xffffffff := by
    rw [UInt32.xor_not, UInt32.xor_self]
    rfl
  constructor
  · intro same
    rw [← same, UInt32.ofNat_toNat, ones]
  · intro same
    have added := shiftBy_injective same
    rw [← ones, UInt32.xor_right_inj] at added
    rw [← added, word]

end ExprWire.Crc32
