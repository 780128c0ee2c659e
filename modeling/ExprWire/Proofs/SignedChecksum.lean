import ExprWire.Crc32.Signed
import ExprWire.Proofs.Checksum
/-!
The checksum over signed numbers. The bits of a number follow those of the register at every step,
whatever its sign, so the table-driven checksum is the remainder of bitwise division in either
arithmetic.
-/

namespace ExprWire.Crc32

open Word

namespace Signed

theorem and_one_ne_zero_iff (register : Int) :
    Word.and register 1 ≠ 0 ↔ bits register &&& 1 = 1 := by
  have low : (bits register &&& 1).toNat = (bits register).toNat % 2 := by
    rw [UInt32.toNat_and]
    exact Nat.and_one_is_mod _
  have zero : bits register &&& 1 = 0 ↔ (bits register).toNat % 2 = 0 := by
    rw [← UInt32.toNat_inj, low]
    rfl
  have one : bits register &&& 1 = 1 ↔ (bits register).toNat % 2 = 1 := by
    rw [← UInt32.toNat_inj, low]
    rfl
  rw [Ne, Word.and, signed_eq_zero_iff, one]
  change ¬bits register &&& 1 = 0 ↔ _
  rw [zero]
  omega

theorem bits_shift (register : Int) : bits (shift register) = Crc32.shift (bits register) := by
  unfold shift Crc32.shift
  by_cases odd : bits register &&& 1 = 1
  · rw [if_pos ((and_one_ne_zero_iff register).mpr odd), if_pos odd, bits_xor, bits_shiftRight]
    rfl
  · rw [if_neg (mt (and_one_ne_zero_iff register).mp odd), if_neg odd, bits_shiftRight]

theorem bits_shiftBy (n : Nat) (register : Int) :
    bits (shiftBy n register) = Crc32.shiftBy n (bits register) := by
  induction n generalizing register with
  | zero => rfl
  | succ n ih => rw [shiftBy, ih, bits_shift, Crc32.shiftBy]

theorem table_eq : table = Crc32.table := by
  have entries (i : Fin 256) : bits (shiftBy 8 (i : Nat)) = Crc32.shiftBy 8 (UInt32.ofNat i) := by
    rw [bits_shiftBy, bits_natCast]
  exact congrArg Vector.ofFn (funext entries)

theorem index_eq (register : Int) (byte : UInt8) :
    ⟨_, and_byte_lt (Word.xor register byte.toNat)⟩ =
      ((bits register).toUInt8 ^^^ byte).toFin := by
  have narrow : (bits register ^^^ byte.toUInt32).toUInt8 = (bits register).toUInt8 ^^^ byte := by
    rw [UInt32.toUInt8_xor, UInt8.toUInt8_toUInt32]
  apply Fin.ext
  change (Word.and (Word.xor register byte.toNat) 255).toNat =
    ((bits register).toUInt8 ^^^ byte).toNat
  rw [and_byte, Int.toNat_natCast, bits_xor, bits_natCast, ← toUInt32_eq_ofNat, ← narrow,
    UInt32.toNat_toUInt8]

theorem bits_step (register : Int) (byte : UInt8) :
    bits (step register byte) = Crc32.step (bits register) byte := by
  rw [step, Crc32.step, bits_xor, bits_unsigned, bits_shiftRight, table_eq, index_eq]

theorem bits_foldl_step (register : Int) (bytes : Bytes) :
    bits (bytes.foldl step register) = bytes.foldl Crc32.step (bits register) := by
  induction bytes generalizing register with
  | nil => rfl
  | cons byte bytes ih => rw [List.foldl_cons, ih, bits_step, List.foldl_cons]

theorem checksum_eq (bytes : Bytes) : checksum bytes = unsigned (Crc32.checksum bytes) := by
  have ones : bits 0xffffffff = ~~~0 := by decide
  rw [checksum, shiftRight, bits_xor, bits_foldl_step, ones, UInt32.shiftRight_zero,
    UInt32.xor_not, UInt32.xor_zero]
  rfl

end Signed

/-- Dividing by table look-ups comes to the remainder of dividing bit by bit, in words and in
signed numbers alike: after any bytes the register is a signed word with the bits of the
remainder, and the checksum itself is never negative. -/
theorem divides_bitwise (bytes : Bytes) :
    checksum bytes = remainder bytes ∧
    Signed.checksum bytes = (remainder bytes).toNat ∧
    (0 ≤ Signed.checksum bytes ∧ Signed.checksum bytes ≤ 4294967295) ∧
    bits (bytes.foldl Signed.step 0xffffffff) = bytes.foldl bitwiseStep 0xffffffff ∧
    ∀ byte, -2147483648 ≤ (bytes ++ [byte]).foldl Signed.step 0xffffffff ∧
      (bytes ++ [byte]).foldl Signed.step 0xffffffff ≤ 2147483647 := by
  refine ⟨checksum_eq bytes, ?_, unsigned_bounds _, ?_, fun byte => ?_⟩
  · rw [Signed.checksum_eq, checksum_eq]
    rfl
  · rw [Signed.bits_foldl_step, foldl_step_eq]
    rfl
  · rw [List.foldl_append]
    exact signed_bounds _

end ExprWire.Crc32
