import ExprWire.Text.Base64
/-!
Base64. Whatever has been encoded is decoded again, and the texts that are decoded are those in
groups of four digits, of which the last may be filled up.
-/

namespace ExprWire.Text.Base64

def IsDigit (c : Char) : Prop :=
  ('A' ≤ c ∧ c ≤ 'Z') ∨ ('a' ≤ c ∧ c ≤ 'z') ∨ ('0' ≤ c ∧ c ≤ '9') ∨ c = '+' ∨ c = '/'

theorem isDigit_iff {c : Char} : IsDigit c ↔ ∃ n, value? c = some n := by
  unfold IsDigit value?
  repeat' split
  all_goals simp_all

theorem value?_digit : ∀ n < 64, value? (digit n) = some n := by decide

theorem ne_filler {c : Char} {n : Nat} (value : value? c = some n) : c ≠ '=' := by
  rintro rfl
  have noDigit : value? '=' = none := by decide
  exact absurd (noDigit.symm.trans value) nofun

inductive Groups : List Char → Prop
  | nil : Groups []
  | two {a b : Char} : IsDigit a → IsDigit b → Groups [a, b, '=', '=']
  | three {a b c : Char} : IsDigit a → IsDigit b → IsDigit c → Groups [a, b, c, '=']
  | four {a b c d : Char} {rest : List Char} : IsDigit a → IsDigit b → IsDigit c → IsDigit d →
      Groups rest → Groups (a :: b :: c :: d :: rest)

section

variable {a b c d : Char} {i j k l : Nat} {rest : List Char} {bytes : Bytes}

theorem decodeDigits?_two (first : value? a = some i) (second : value? b = some j) :
    decodeDigits? [a, b, '=', '='] = some [UInt8.ofNat (i * 4 + j / 16)] := by
  rw [decodeDigits?, first, second]
  rfl

theorem decodeDigits?_three (first : value? a = some i) (second : value? b = some j)
    (third : value? c = some k) : decodeDigits? [a, b, c, '='] =
      some [UInt8.ofNat (i * 4 + j / 16), UInt8.ofNat (j % 16 * 16 + k / 4)] := by
  rw [decodeDigits?, first, second, third]
  · rfl
  · exact ne_filler third

-- A group of four digits matches no earlier pattern, since its last digit is no equals sign.
theorem decodeDigits?_four (first : value? a = some i) (second : value? b = some j)
    (third : value? c = some k) (fourth : value? d = some l)
    (others : decodeDigits? rest = some bytes) : decodeDigits? (a :: b :: c :: d :: rest) =
      some (UInt8.ofNat (i * 4 + j / 16) :: UInt8.ofNat (j % 16 * 16 + k / 4) ::
        UInt8.ofNat (k % 4 * 64 + l) :: bytes) := by
  rw [decodeDigits?, first, second, third, fourth, others]
  · rfl
  · exact fun _ closed => absurd closed (ne_filler fourth)
  · exact fun closed => absurd closed (ne_filler fourth)

end

theorem exists_decodeDigits?_iff (text : List Char) :
    (∃ bytes, decodeDigits? text = some bytes) ↔ Groups text := by
  constructor
  · rintro ⟨bytes, decoded⟩
    fun_induction decodeDigits? text generalizing bytes with
    | case1 => exact .nil
    | case2 a b =>
        simp only [Option.bind_eq_bind, Option.bind_eq_some_iff] at decoded
        rcases decoded with ⟨i, first, j, second, -⟩
        exact .two (isDigit_iff.mpr ⟨i, first⟩) (isDigit_iff.mpr ⟨j, second⟩)
    | case3 a b c filled =>
        simp only [Option.bind_eq_bind, Option.bind_eq_some_iff] at decoded
        rcases decoded with ⟨i, first, j, second, k, third, -⟩
        exact .three (isDigit_iff.mpr ⟨i, first⟩) (isDigit_iff.mpr ⟨j, second⟩)
          (isDigit_iff.mpr ⟨k, third⟩)
    | case4 a b c d rest _ _ ih =>
        simp only [Option.bind_eq_bind, Option.bind_eq_some_iff] at decoded
        rcases decoded with ⟨i, first, j, second, k, third, l, fourth, others, decoded, -⟩
        exact .four (isDigit_iff.mpr ⟨i, first⟩) (isDigit_iff.mpr ⟨j, second⟩)
          (isDigit_iff.mpr ⟨k, third⟩) (isDigit_iff.mpr ⟨l, fourth⟩) (ih others decoded)
    | case5 => exact absurd decoded nofun
  · intro groups
    induction groups with
    | nil => exact ⟨[], rfl⟩
    | two first second =>
        rcases isDigit_iff.mp first with ⟨i, first⟩
        rcases isDigit_iff.mp second with ⟨j, second⟩
        exact ⟨_, decodeDigits?_two first second⟩
    | three first second third =>
        rcases isDigit_iff.mp first with ⟨i, first⟩
        rcases isDigit_iff.mp second with ⟨j, second⟩
        rcases isDigit_iff.mp third with ⟨k, third⟩
        exact ⟨_, decodeDigits?_three first second third⟩
    | four first second third fourth _ ih =>
        rcases isDigit_iff.mp first with ⟨i, first⟩
        rcases isDigit_iff.mp second with ⟨j, second⟩
        rcases isDigit_iff.mp third with ⟨k, third⟩
        rcases isDigit_iff.mp fourth with ⟨l, fourth⟩
        rcases ih with ⟨bytes, decoded⟩
        exact ⟨_, decodeDigits?_four first second third fourth decoded⟩

theorem exists_decode?_iff (text : String) :
    (∃ bytes, decode? text = some bytes) ↔ Groups text.toList :=
  exists_decodeDigits?_iff text.toList

theorem ofNat_first (x : UInt8) {next : Nat} (small : next < 16) :
    UInt8.ofNat (x.toNat / 4 * 4 + (x.toNat % 4 * 16 + next) / 16) = x := by
  have split : x.toNat / 4 * 4 + (x.toNat % 4 * 16 + next) / 16 = x.toNat := by omega
  rw [split, UInt8.ofNat_toNat]

theorem ofNat_second (before : Nat) (y : UInt8) {next : Nat} (small : next < 4) :
    UInt8.ofNat ((before * 16 + y.toNat / 16) % 16 * 16 + (y.toNat % 16 * 4 + next) / 4) = y := by
  have bound := y.toNat_lt
  have split : (before * 16 + y.toNat / 16) % 16 * 16 + (y.toNat % 16 * 4 + next) / 4 =
      y.toNat := by
    omega
  rw [split, UInt8.ofNat_toNat]

theorem ofNat_third (before : Nat) (z : UInt8) :
    UInt8.ofNat ((before * 4 + z.toNat / 64) % 4 * 64 + z.toNat % 64) = z := by
  have bound := z.toNat_lt
  have split : (before * 4 + z.toNat / 64) % 4 * 64 + z.toNat % 64 = z.toNat := by omega
  rw [split, UInt8.ofNat_toNat]

theorem decodeDigits?_encodeDigits (bytes : Bytes) :
    decodeDigits? (encodeDigits bytes) = some bytes := by
  fun_induction encodeDigits bytes with
  | case1 => rfl
  | case2 x =>
      have := x.toNat_lt
      rw [decodeDigits?_two (value?_digit _ (by omega)) (value?_digit _ (by omega))]
      exact congrArg (some [·]) (ofNat_first x (by decide : 0 < 16))
  | case3 x y =>
      have := x.toNat_lt
      have := y.toNat_lt
      rw [decodeDigits?_three (value?_digit _ (by omega)) (value?_digit _ (by omega))
        (value?_digit _ (by omega)), ofNat_first x (by omega)]
      exact congrArg (some [x, ·]) (ofNat_second _ y (by decide : 0 < 4))
  | case4 x y z rest ih =>
      have := x.toNat_lt
      have := y.toNat_lt
      have := z.toNat_lt
      rw [decodeDigits?_four (value?_digit _ (by omega)) (value?_digit _ (by omega))
        (value?_digit _ (by omega)) (value?_digit _ (by omega)) ih, ofNat_first x (by omega),
        ofNat_second _ y (by omega), ofNat_third]

theorem decode?_encode (bytes : Bytes) : decode? (encode bytes) = some bytes := by
  rw [decode?, encode, String.toList_ofList, decodeDigits?_encodeDigits]

example : encode [0xFB, 0xEF, 0xBE, 0xFF] = "++++/w==" := by decide

theorem groups_encode (bytes : Bytes) : Groups (encode bytes).toList :=
  (exists_decode?_iff _).mp ⟨bytes, decode?_encode bytes⟩

end ExprWire.Text.Base64
