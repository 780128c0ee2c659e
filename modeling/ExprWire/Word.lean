/-!
Whole numbers combined bit by bit. A number stands for its 32 lowest bits. What comes of a
conjunction or a disjunction, exclusive or not, is read as a signed word, what comes of a shift to
the right as an unsigned one.
-/

namespace ExprWire.Word

def bits (x : Int) : UInt32 := (Int32.ofInt x).toUInt32

def signed (word : UInt32) : Int := word.toInt32.toInt

def unsigned (word : UInt32) : Int := word.toNat

def and (x y : Int) : Int := signed (bits x &&& bits y)

def or (x y : Int) : Int := signed (bits x ||| bits y)

def xor (x y : Int) : Int := signed (bits x ^^^ bits y)

def shiftRight (x : Int) (count : UInt32) : Int := unsigned (bits x >>> count)

theorem bits_natCast (n : Nat) : bits n = UInt32.ofNat n :=
  UInt32.toBitVec_inj.mp (BitVec.ofInt_natCast 32 n)

@[simp] theorem bits_signed (word : UInt32) : bits (signed word) = word :=
  UInt32.toBitVec_inj.mp BitVec.ofInt_toInt

@[simp] theorem bits_unsigned (word : UInt32) : bits (unsigned word) = word := by
  rw [unsigned, bits_natCast, UInt32.ofNat_toNat]

@[simp] theorem bits_and (x y : Int) : bits (and x y) = bits x &&& bits y := bits_signed _

@[simp] theorem bits_xor (x y : Int) : bits (xor x y) = bits x ^^^ bits y := bits_signed _

@[simp] theorem bits_shiftRight (x : Int) (count : UInt32) :
    bits (shiftRight x count) = bits x >>> count := bits_unsigned _

theorem signed_bounds (word : UInt32) :
    -2147483648 ≤ signed word ∧ signed word ≤ 2147483647 :=
  ⟨word.toInt32.le_toInt, Int.le_of_lt_add_one word.toInt32.toInt_lt⟩

theorem unsigned_bounds (word : UInt32) : 0 ≤ unsigned word ∧ unsigned word ≤ 4294967295 :=
  ⟨Int.natCast_nonneg _, Int.ofNat_le.mpr (Nat.le_of_lt_succ word.toNat_lt)⟩

theorem signed_of_lt {word : UInt32} (small : word.toNat < 2147483648) :
    signed word = word.toNat :=
  BitVec.toInt_eq_toNat_of_lt (by change 2 * word.toNat < 4294967296; omega)

theorem signed_eq_zero_iff (word : UInt32) : signed word = 0 ↔ word = 0 := by
  constructor
  · intro zero
    have same := congrArg bits zero
    rwa [bits_signed] at same
  · rintro rfl
    rfl

theorem and_byte (x : Int) : and x 255 = ((bits x).toNat % 256 : Nat) := by
  have low : (bits x &&& bits 255).toNat = (bits x).toNat % 256 := by
    rw [UInt32.toNat_and]
    exact Nat.and_two_pow_sub_one_eq_mod (bits x).toNat 8
  rw [and, signed_of_lt (by omega), low]

theorem and_byte_lt (x : Int) : (and x 255).toNat < 256 := by
  rw [and_byte, Int.toNat_natCast]
  exact Nat.mod_lt _ (by decide)

theorem toNat_and_septet (n : Nat) : (bits n &&& bits 127).toNat = n % 128 := by
  have masked : (bits n &&& bits 127).toNat = (bits n).toNat % 128 := by
    rw [UInt32.toNat_and]
    exact Nat.and_two_pow_sub_one_eq_mod (bits n).toNat 7
  rw [masked, bits_natCast, UInt32.toNat_ofNat']
  omega

theorem and_septet (n : Nat) : and n 127 = (n % 128 : Nat) := by
  have low := toNat_and_septet n
  rw [and, signed_of_lt (by omega), low]

theorem or_and_septet (n : Nat) : or (and n 127) 128 = (128 + n % 128 : Nat) := by
  have low := toNat_and_septet n
  have sum : (bits n &&& bits 127 ||| bits 128).toNat = 128 + n % 128 := by
    have joined : 128 + n % 128 = 128 ||| n % 128 :=
      Nat.two_pow_add_eq_or_of_lt (i := 7) (Nat.mod_lt n (by decide)) 1
    rw [UInt32.toNat_or, low, joined, Nat.or_comm]
    rfl
  rw [or, bits_and, signed_of_lt (by omega), sum]

theorem and_highest_eq_zero_iff : ∀ n : Nat, n < 256 → (and n 128 = 0 ↔ n < 128) := by
  decide +kernel

end ExprWire.Word
