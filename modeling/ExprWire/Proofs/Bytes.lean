import ExprWire.Text.Units
import ExprWire.Text.Utf8
/-!
Numerals and texts as byte strings. A little-endian numeral spells its number, and UTF-8 is a prefix
code, so the end of a text is determined by its width in 16-bit units.
-/

namespace ExprWire

namespace Bytes

theorem ofLittleEndian_littleEndian (width n : Nat) :
    ofLittleEndian (littleEndian width n) = n % Nat.pow 256 width := by
  induction width generalizing n with
  | zero =>
      change 0 = n % 1
      omega
  | succ width ih =>
      have digit : (UInt8.ofNat n).toNat = n % 256 := UInt8.toNat_ofNat'
      have power : Nat.pow 256 (width + 1) = 256 * Nat.pow 256 width := Nat.mul_comm _ _
      rw [littleEndian, ofLittleEndian, ih, digit, power, Nat.mod_mul]

theorem ofLittleEndian_littleEndian_of_lt {width n : Nat} (small : n < Nat.pow 256 width) :
    ofLittleEndian (littleEndian width n) = n := by
  rw [ofLittleEndian_littleEndian, Nat.mod_eq_of_lt small]

theorem littleEndian_injective (width : Nat) {n m : Nat} (left : n < Nat.pow 256 width)
    (right : m < Nat.pow 256 width) (same : littleEndian width n = littleEndian width m) :
    n = m := by
  have spelled := congrArg ofLittleEndian same
  rwa [ofLittleEndian_littleEndian_of_lt left, ofLittleEndian_littleEndian_of_lt right] at spelled

theorem littleEndian_ofLittleEndian (bytes : Bytes) :
    littleEndian bytes.length (ofLittleEndian bytes) = bytes := by
  induction bytes with
  | nil => rfl
  | cons byte bytes ih =>
      have small : byte.toNat < 256 := byte.toNat_lt
      have digit : UInt8.ofNat (byte.toNat + 256 * ofLittleEndian bytes) = byte := by
        apply UInt8.toNat_inj.mp
        rw [UInt8.toNat_ofNat', Nat.add_mul_mod_self_left, Nat.mod_eq_of_lt small]
      have others : (byte.toNat + 256 * ofLittleEndian bytes) / 256 = ofLittleEndian bytes := by
        omega
      rw [ofLittleEndian, List.length_cons, littleEndian, digit, others, ih]

theorem ofLittleEndian_lt (bytes : Bytes) :
    ofLittleEndian bytes < Nat.pow 256 bytes.length := by
  induction bytes with
  | nil => exact Nat.zero_lt_one
  | cons byte bytes ih =>
      have small : byte.toNat < 256 := byte.toNat_lt
      have power : Nat.pow 256 (bytes.length + 1) = Nat.pow 256 bytes.length * 256 := rfl
      rw [ofLittleEndian, List.length_cons, power]
      omega

theorem ofLittleEndian_injective {bytes other : Bytes} (size : bytes.length = other.length)
    (same : ofLittleEndian bytes = ofLittleEndian other) : bytes = other := by
  rw [← littleEndian_ofLittleEndian bytes, size, same, littleEndian_ofLittleEndian]

end Bytes

namespace Text

theorem utf8_eq_flatMap (text : String) :
    utf8 text = text.toList.flatMap String.utf8EncodeChar := by
  have bytes : text.toByteArray = text.toList.utf8Encode := String.utf8Encode_toList.symm
  change text.toByteArray.data.toList = _
  rw [bytes, List.utf8Encode, List.data_toByteArray]

theorem utf8EncodeChar_append_inj {c d : Char} {rest other : Bytes}
    (same : String.utf8EncodeChar c ++ rest = String.utf8EncodeChar d ++ other) :
    c = d ∧ rest = other := by
  have first : c = d := by
    have left := ByteArray.utf8DecodeChar?_utf8EncodeChar_append (b := rest.toByteArray) (c := c)
    have right := ByteArray.utf8DecodeChar?_utf8EncodeChar_append (b := other.toByteArray) (c := d)
    rw [← List.toByteArray_append, same, List.toByteArray_append, right] at left
    exact (Option.some.inj left).symm
  subst d
  exact ⟨rfl, List.append_cancel_left same⟩

theorem unitsOfChar_ne_nil (c : Char) : unitsOfChar c ≠ [] := by
  unfold unitsOfChar
  split <;> simp

theorem encoded_append_inj {cs ds : List Char} {rest other : Bytes}
    (widths : (cs.flatMap unitsOfChar).length = (ds.flatMap unitsOfChar).length)
    (same : cs.flatMap String.utf8EncodeChar ++ rest =
      ds.flatMap String.utf8EncodeChar ++ other) : cs = ds ∧ rest = other := by
  have positive (c : Char) : 0 < (unitsOfChar c).length :=
    List.length_pos_iff.mpr (unitsOfChar_ne_nil c)
  induction cs generalizing ds with
  | nil =>
      cases ds with
      | nil => exact ⟨rfl, same⟩
      | cons d ds =>
          have := positive d
          rw [List.flatMap_nil, List.flatMap_cons, List.length_nil, List.length_append] at widths
          omega
  | cons c cs ih =>
      cases ds with
      | nil =>
          have := positive c
          rw [List.flatMap_nil, List.flatMap_cons, List.length_nil, List.length_append] at widths
          omega
      | cons d ds =>
          rw [List.flatMap_cons, List.flatMap_cons, List.append_assoc, List.append_assoc] at same
          rcases utf8EncodeChar_append_inj same with ⟨rfl, tails⟩
          rw [List.flatMap_cons, List.flatMap_cons, List.length_append, List.length_append] at widths
          rcases ih (by omega) tails with ⟨rfl, rests⟩
          exact ⟨rfl, rests⟩

theorem utf8_append_inj {text word : String} {rest other : Bytes} (widths : width text = width word)
    (same : utf8 text ++ rest = utf8 word ++ other) : text = word ∧ rest = other := by
  rw [utf8_eq_flatMap, utf8_eq_flatMap] at same
  rcases encoded_append_inj widths same with ⟨characters, rests⟩
  exact ⟨String.toList_inj.mp characters, rests⟩

theorem utf8_injective {text word : String} (same : utf8 text = utf8 word) : text = word := by
  have read := congrArg (fun bytes => String.fromUTF8? bytes.toByteArray) same
  simp only [fromUTF8?_utf8] at read
  exact Option.some.inj read

def Unmarked (text : String) : Prop := text.toList.head? ≠ some '\uFEFF'

instance (text : String) : Decidable (Unmarked text) := inferInstanceAs (Decidable (_ ≠ _))

theorem dropMark_eq_self_iff {text : String} : dropMark text = text ↔ Unmarked text := by
  unfold dropMark Unmarked
  split
  · rename_i cs spelled
    constructor
    · intro same
      have characters := congrArg (List.length ∘ String.toList) same
      simp only [Function.comp, String.toList_ofList, spelled, List.length_cons] at characters
      omega
    · intro unmarked
      rw [spelled] at unmarked
      exact absurd rfl unmarked
  · rename_i plain
    refine ⟨fun _ head => ?_, fun _ => rfl⟩
    rcases List.head?_eq_some_iff.mp head with ⟨cs, spelled⟩
    exact plain cs spelled

theorem dropMark_eq_iff {raw text : String} :
    dropMark raw = text ↔ raw = "\uFEFF" ++ text ∨ raw = text ∧ Unmarked text := by
  have marked (text : String) : ("\uFEFF" ++ text).toList = '\uFEFF' :: text.toList := by
    rw [String.toList_append]
    rfl
  constructor
  · intro dropped
    by_cases plain : Unmarked raw
    · rw [dropMark_eq_self_iff.mpr plain] at dropped
      exact .inr ⟨dropped, dropped ▸ plain⟩
    · rcases List.head?_eq_some_iff.mp (Classical.not_not.mp plain) with ⟨cs, spelled⟩
      have rest : String.ofList cs = text := by
        rw [dropMark, spelled] at dropped
        exact dropped
      refine .inl (String.toList_inj.mp ?_)
      rw [marked, spelled, ← rest, String.toList_ofList]
  · rintro (rfl | ⟨rfl, plain⟩)
    · rw [dropMark, marked]
      exact String.ofList_toList
    · exact dropMark_eq_self_iff.mpr plain

theorem ofUtf8?_eq_some_iff {bytes : Bytes} {text : String} :
    ofUtf8? bytes = some text ↔ ∃ raw, bytes = utf8 raw ∧ dropMark raw = text := by
  constructor
  · intro read
    rcases Option.map_eq_some_iff.mp read with ⟨raw, spelled, dropped⟩
    rw [String.fromUTF8?] at spelled
    split at spelled
    · rename_i valid
      refine ⟨raw, ?_, dropped⟩
      rw [← Option.some.inj spelled]
      change bytes = (bytes.toByteArray).data.toList
      rw [List.data_toByteArray, List.toList_toArray]
    · cases spelled
  · rintro ⟨raw, rfl, rfl⟩
    exact ofUtf8?_utf8 raw

end Text

end ExprWire
