import Mathlib.Data.Nat.Digits.Defs
import ExprWire.Proofs.Grammar
import ExprWire.Proofs.Reading
import ExprWire.Proofs.Storage
/-!
Numerals, read and written. The reader takes every spelling of a number that is short enough, the
shortest or not; the writer chooses the shortest, of which there is one.
-/

namespace ExprWire

namespace Grammar

theorem digits_append_iff {front : Bytes} {last : UInt8} {n : Nat} :
    Digits (front ++ [last]) n ↔ (∀ digit ∈ front, 128 ≤ digit.toNat) ∧ last.toNat < 128 ∧
      n = Nat.ofDigits 128 ((front ++ [last]).map fun digit => digit.toNat % 128) := by
  induction front generalizing n with
  | nil =>
      rw [List.nil_append, List.map_singleton, Nat.ofDigits_singleton]
      constructor
      · intro spelled
        cases spelled with
        | last small => exact ⟨nofun, small, (Nat.mod_eq_of_lt small).symm⟩
        | next _ others => exact absurd rfl others.ne_nil
      · rintro ⟨-, small, rfl⟩
        rw [Nat.mod_eq_of_lt small]
        exact .last small
  | cons digit front ih =>
      have small : digit.toNat < 256 := digit.toNat_lt
      rw [List.cons_append, List.map_cons, Nat.ofDigits_cons, List.forall_mem_cons]
      by_cases continued : 128 ≤ digit.toNat
      · have low : digit.toNat % 128 = digit.toNat - 128 := by omega
        rw [digits_continued_iff continued, low]
        constructor
        · rintro ⟨m, others, rfl⟩
          obtain ⟨each, least, rfl⟩ := ih.mp others
          exact ⟨⟨continued, each⟩, least, rfl⟩
        · rintro ⟨⟨-, each⟩, least, rfl⟩
          exact ⟨_, ih.mpr ⟨each, least, rfl⟩, rfl⟩
      · rw [digits_last_iff (Nat.not_le.mp continued)]
        constructor
        · rintro ⟨none, -⟩
          exact absurd none (List.append_ne_nil_of_right_ne_nil front (List.cons_ne_nil last []))
        · rintro ⟨⟨head, -⟩, -⟩
          exact absurd head continued

theorem Digits.shortest {digits : Bytes} {n : Nat} (spelled : Digits digits n) :
    digits = Varint.encode n ∨ (Varint.encode n).length < digits.length := by
  induction spelled with
  | @last digit small =>
      rw [Varint.encode, if_pos small, UInt8.ofNat_toNat]
      exact .inl rfl
  | @next digit digits n continued others ih =>
      have small : digit.toNat < 256 := digit.toNat_lt
      rw [Varint.encode]
      -- the digits behind may all be empty, and then this one would have been enough
      by_cases padded : digit.toNat - 128 + 128 * n < 128
      · rw [if_pos padded]
        exact .inr (Nat.succ_lt_succ (List.length_pos_iff.mpr others.ne_nil))
      · have low : (digit.toNat - 128 + 128 * n) % 128 = digit.toNat - 128 := by omega
        have high : (digit.toNat - 128 + 128 * n) / 128 = n := by omega
        rw [if_neg padded, low, high, Nat.add_sub_cancel' continued, UInt8.ofNat_toNat]
        rcases ih with rfl | fewer
        · exact .inl rfl
        · exact .inr (Nat.succ_lt_succ fewer)

end Grammar

namespace Varint

/-- That bytes are the digits of a number: at most five, all but the last with the continuation bit,
with seven bits each, the lowest first. -/
def Spells (digits : Bytes) (n : Nat) : Prop :=
  ∃ front last, digits = front ++ [last] ∧ digits.length ≤ 5 ∧
    (∀ digit ∈ front, 128 ≤ digit.toNat) ∧ last.toNat < 128 ∧
    n = Nat.ofDigits 128 (digits.map fun digit => digit.toNat % 128) ∧ n ≤ 4294967295

theorem spells_iff {digits : Bytes} {n : Nat} : Spells digits n ↔ Grammar.Numeral digits n := by
  constructor
  · rintro ⟨front, last, rfl, short, each, least, sum, small⟩
    exact ⟨Grammar.digits_append_iff.mpr ⟨each, least, sum⟩, short, small⟩
  · rintro ⟨spelled, short, small⟩
    obtain ⟨front, last, rfl⟩ := (List.eq_nil_or_concat' digits).resolve_left spelled.ne_nil
    obtain ⟨each, least, sum⟩ := Grammar.digits_append_iff.mp spelled
    exact ⟨front, last, rfl, short, each, least, sum, small⟩

def IsRead (digits : Bytes) (n : Nat) : Prop :=
  Reader.varint.run (.start digits) = (.ok n, ⟨digits.length, []⟩)

theorem isRead_iff {digits : Bytes} {n : Nat} : IsRead digits n ↔ Spells digits n := by
  have exactly : Reader.varint.run ⟨0, digits⟩ = (.ok n, ⟨0 + digits.length, []⟩) ↔ _ :=
    Reader.exact_varint.run_eq_ok_iff
  rw [Nat.zero_add] at exactly
  rw [IsRead, Cursor.start, exactly, spells_iff]
  constructor
  · rintro ⟨taken, same, -, numeral⟩
    rwa [same, List.append_nil]
  · intro numeral
    exact ⟨digits, (List.append_nil digits).symm, rfl, numeral⟩

theorem isRead_encode {n : Nat} (small : n ≤ limit) : IsRead (encode n) n := by
  have read := Reader.reads_varint small 0 []
  rwa [List.append_nil, Nat.zero_add] at read

example : Reader.varint.parse [0xac, 0x02] = .ok 300 := by decide

-- the same with an empty digit more
example : Reader.varint.parse [0xac, 0x82, 0x00] = .ok 300 := by decide

/-- What is read are the spellings of numbers, and for the rest the bytes are blamed. What is
written are the numbers that have one, and each as the shortest of all that would be read as it. -/
theorem spells_exactly :
    (∀ (bytes : Bytes) (offset n count : Nat),
      Reader.varint.run ⟨offset, bytes.drop offset⟩ =
          (.ok n, ⟨offset + count, bytes.drop (offset + count)⟩) ↔
        ∃ digits, bytes.drop offset = digits ++ bytes.drop (offset + count) ∧
          digits.length = count ∧ Spells digits n) ∧
    (∀ (bytes : Bytes) (offset : Nat),
      (¬∃ digits rest n, bytes.drop offset = digits ++ rest ∧ Spells digits n) →
        ∃ fault after, Reader.varint.run ⟨offset, bytes.drop offset⟩ =
            (.error (.fault fault), after) ∧ fault.status = .invalidArgument) ∧
    (∀ x : Number, x.Word → ∃ n digits, x = .ofNat n ∧
      Buffer.Writes (·.varint x) digits ∧ Storage.Appends (Storage.varint x) digits ∧
      IsRead digits n ∧ ∀ other, IsRead other n → other = digits ∨ digits.length < other.length) ∧
    ∀ x : Number, ¬x.Word →
      (∀ buffer : Buffer, buffer.varint x = raise (.notVarint x)) ∧
      ∀ storage, (Storage.varint x).run storage = some (raise (.notVarint x), storage) := by
  refine ⟨fun bytes offset n count => ?_, fun bytes offset unspelled => ?_,
    fun x within => ?_, fun x beyond => ?_⟩
  · simp only [spells_iff]
    exact Reader.exact_varint.run_eq_ok_iff
  · simp only [spells_iff] at unspelled
    exact Reader.exact_varint.refuses offset unspelled
  · have fits := Number.fits_iff_word.mpr within
    obtain ⟨n, small, rfl, -⟩ := fits.exists_nat
    have written := Buffer.writes_varint fits
    have stored := Storage.appends_varint fits
    rw [Spelling.number_ofNat small] at written stored
    refine ⟨n, encode n, rfl, written, stored, isRead_encode small, ?_⟩
    intro other read
    exact (spells_iff.mp (isRead_iff.mp read)).1.shortest
  · have unfit := mt Number.fits_iff_word.mp beyond
    exact ⟨Buffer.varint_unfit unfit, Storage.varint_unfit unfit⟩

end Varint

end ExprWire
