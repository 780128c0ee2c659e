import ExprWire.Fingerprint
import ExprWire.Proofs.Bytes
/-!
Descriptions of things by salt and fields. Framing keeps every field apart from the next, so that
two descriptions with the same bytes are the same, and under a digest without collisions two
descriptions with the same fingerprint are.
-/

namespace ExprWire.Fingerprint

theorem digitChar_injective {a b : Nat} (left : a < 16) (right : b < 16)
    (same : Nat.digitChar a = Nat.digitChar b) : a = b := by
  have table : ∀ a < 16, ∀ b < 16, Nat.digitChar a = Nat.digitChar b → a = b := by decide
  exact table a left b right same

theorem toDigits_injective {n m : Nat} (same : Nat.toDigits 16 n = Nat.toDigits 16 m) : n = m := by
  induction n using Nat.strongRecOn generalizing m with
  | _ n ih =>
      by_cases small : n < 16 <;> by_cases small' : m < 16
      · rw [Nat.toDigits_of_lt_base small, Nat.toDigits_of_lt_base small'] at same
        exact digitChar_injective small small' (List.singleton_inj.mp same)
      · rw [Nat.toDigits_of_lt_base small, Nat.toDigits_of_base_le (by omega) (by omega)] at same
        have lengths := congrArg List.length same
        have := Nat.length_toDigits_pos (b := 16) (n := m / 16)
        rw [List.length_append, List.length_singleton, List.length_singleton] at lengths
        omega
      · rw [Nat.toDigits_of_lt_base small', Nat.toDigits_of_base_le (by omega) (by omega)] at same
        have lengths := congrArg List.length same
        have := Nat.length_toDigits_pos (b := 16) (n := n / 16)
        rw [List.length_append, List.length_singleton, List.length_singleton] at lengths
        omega
      · rw [Nat.toDigits_of_base_le (by omega) (Nat.le_of_not_lt small),
          Nat.toDigits_of_base_le (by omega) (Nat.le_of_not_lt small')] at same
        rcases List.append_inj' same rfl with ⟨tens, unit⟩
        have quotients : n / 16 = m / 16 := ih (n / 16) (by omega) tens
        have remainders : n % 16 = m % 16 :=
          digitChar_injective (Nat.mod_lt _ (by omega)) (Nat.mod_lt _ (by omega))
            (List.singleton_inj.mp unit)
        omega

theorem digitChar_ne_minus {n : Nat} (small : n < 16) : Nat.digitChar n ≠ '-' := by
  have table : ∀ n < 16, Nat.digitChar n ≠ '-' := by decide
  exact table n small

theorem minus_not_mem_toDigits (n : Nat) : '-' ∉ Nat.toDigits 16 n := by
  induction n using Nat.strongRecOn with
  | _ n ih =>
      by_cases small : n < 16
      · rw [Nat.toDigits_of_lt_base small, List.mem_singleton]
        exact (digitChar_ne_minus small).symm
      · rw [Nat.toDigits_of_base_le (by omega) (by omega), List.mem_append, List.mem_singleton]
        intro held
        rcases held with present | same
        · exact ih (n / 16) (by omega) present
        · exact digitChar_ne_minus (Nat.mod_lt _ (by omega)) same.symm

theorem toList_hexDigits (n : Int) : (hexDigits n).toList =
    if n < 0 then '-' :: Nat.toDigits 16 n.natAbs else Nat.toDigits 16 n.natAbs := by
  unfold hexDigits
  split
  · exact (String.toList_append).trans (congrArg ('-' :: ·) String.toList_ofList)
  · exact String.toList_ofList

theorem hexDigits_injective {n m : Int} (same : hexDigits n = hexDigits m) : n = m := by
  have lists := congrArg String.toList same
  rw [toList_hexDigits, toList_hexDigits] at lists
  by_cases negative : n < 0 <;> by_cases negative' : m < 0
  · rw [if_pos negative, if_pos negative'] at lists
    have := toDigits_injective (List.cons.inj lists).2
    omega
  · rw [if_pos negative, if_neg negative'] at lists
    exact absurd (lists ▸ List.mem_cons_self) (minus_not_mem_toDigits m.natAbs)
  · rw [if_neg negative, if_pos negative'] at lists
    exact absurd (lists.symm ▸ List.mem_cons_self) (minus_not_mem_toDigits n.natAbs)
  · rw [if_neg negative, if_neg negative'] at lists
    have := toDigits_injective lists
    omega

def Field.length : Field → Nat
  | .text content => (Text.utf8 content).length
  | .number _ => 8
  | .integer n => (Text.utf8 (hexDigits n)).length
  | .bytes content => content.length
  | .digits content => Text.width content

def Field.Short (field : Field) : Prop := field.length < 0x100000000

instance (field : Field) : Decidable field.Short := inferInstanceAs (Decidable (_ < _))

theorem frame_inj {tag other : UInt8} {n m : Nat} {content word : Bytes} (left : n < 0x100000000)
    (right : m < 0x100000000) (same : frame tag n content = frame other m word) :
    tag = other ∧ n = m ∧ content = word := by
  rcases List.cons.inj same with ⟨tags, rest⟩
  obtain ⟨lengths, contents⟩ := List.append_inj rest
    (by rw [Bytes.length_littleEndian, Bytes.length_littleEndian])
  exact ⟨tags, Bytes.littleEndian_injective 4 left right lengths, contents⟩

theorem frame_append (tag : UInt8) (n : Nat) (content rest : Bytes) :
    frame tag n content ++ rest = frame tag n (content ++ rest) :=
  congrArg (tag :: ·) (List.append_assoc _ _ _)

theorem number_inj {x y : Binary64}
    (same : Bytes.littleEndian 8 x.bits.toNat = Bytes.littleEndian 8 y.bits.toNat) : x = y := by
  have bound (z : Binary64) : z.bits.toNat < Nat.pow 256 8 := z.bits.toNat_lt
  have words : x.bits = y.bits :=
    UInt64.toNat_inj.mp (Bytes.littleEndian_injective 8 (bound x) (bound y) same)
  cases x
  cases y
  exact congrArg Binary64.mk words

theorem Field.frame_append_inj {field other : Field} {rest tail : Bytes} (short : field.Short)
    (short' : other.Short) (same : field.frame ++ rest = other.frame ++ tail) :
    field = other ∧ rest = tail := by
  cases field <;> cases other <;>
    simp only [Field.frame, frame_append] at same <;>
    obtain ⟨tags, lengths, contents⟩ := frame_inj short short' same <;>
    first | exact absurd tags (by decide) | skip
  case text.text content word =>
    rcases List.append_inj contents lengths with ⟨texts, rests⟩
    exact ⟨congrArg Field.text (Text.utf8_injective texts), rests⟩
  case number.number x y =>
    obtain ⟨words, rests⟩ := List.append_inj contents
      (by rw [Bytes.length_littleEndian, Bytes.length_littleEndian])
    exact ⟨congrArg Field.number (number_inj words), rests⟩
  case integer.integer n m =>
    rcases List.append_inj contents lengths with ⟨digits, rests⟩
    exact ⟨congrArg Field.integer (hexDigits_injective (Text.utf8_injective digits)), rests⟩
  case bytes.bytes content word =>
    rcases List.append_inj contents lengths with ⟨strings, rests⟩
    exact ⟨congrArg Field.bytes strings, rests⟩
  case digits.digits content word =>
    rcases Text.utf8_append_inj lengths contents with ⟨texts, rests⟩
    exact ⟨congrArg Field.digits texts, rests⟩

theorem Field.frame_ne_nil (field : Field) : field.frame ≠ [] := by
  cases field <;> exact List.cons_ne_nil _ _

theorem prefix_of_flatMap_frame {fields others : List Field} (short : ∀ f ∈ fields, f.Short)
    (short' : ∀ f ∈ others, f.Short)
    (begun : fields.flatMap Field.frame <+: others.flatMap Field.frame) : fields <+: others := by
  induction fields generalizing others with
  | nil => exact List.nil_prefix
  | cons field fields ih =>
      cases others with
      | nil =>
          rw [List.flatMap_cons, List.flatMap_nil, List.prefix_nil] at begun
          exact absurd (List.append_eq_nil_iff.mp begun).1 field.frame_ne_nil
      | cons other others =>
          obtain ⟨tail, same⟩ := begun
          rw [List.flatMap_cons, List.flatMap_cons, List.append_assoc] at same
          obtain ⟨rfl, tails⟩ := Field.frame_append_inj (short field List.mem_cons_self)
            (short' other List.mem_cons_self) same
          have later := ih (fun f present => short f (List.mem_cons_of_mem _ present))
            (fun f present => short' f (List.mem_cons_of_mem _ present)) ⟨tail, tails⟩
          exact List.cons_prefix_cons.mpr ⟨rfl, later⟩

theorem flatMap_frame_injective {fields others : List Field} (short : ∀ f ∈ fields, f.Short)
    (short' : ∀ f ∈ others, f.Short)
    (same : fields.flatMap Field.frame = others.flatMap Field.frame) : fields = others := by
  have front := prefix_of_flatMap_frame short short' (same ▸ List.prefix_rfl)
  have back := prefix_of_flatMap_frame short' short (same ▸ List.prefix_rfl)
  exact front.eq_of_length_le back.length_le

/-- The bytes to be digested tell the salt and all fields, each with its kind, and what is digested
first tells which fields came first. Strings of digits are told although their declared length is
not that of their bytes. -/
theorem framing_injective {salt word : String} {fields others : List Field}
    (short : ∀ f ∈ .text salt :: fields, f.Short) (short' : ∀ f ∈ .text word :: others, f.Short) :
    (preimage salt fields = preimage word others ↔ salt = word ∧ fields = others) ∧
    (preimage salt fields <+: preimage word others ↔ salt = word ∧ fields <+: others) := by
  constructor
  · constructor
    · intro same
      obtain ⟨salts, rest⟩ := List.cons.inj (flatMap_frame_injective short short' same)
      exact ⟨Field.text.inj salts, rest⟩
    · rintro ⟨rfl, rfl⟩
      rfl
  · constructor
    · intro begun
      obtain ⟨salts, rest⟩ := List.cons_prefix_cons.mp (prefix_of_flatMap_frame short short' begun)
      exact ⟨Field.text.inj salts, rest⟩
    · rintro ⟨rfl, more, rfl⟩
      exact ⟨more.flatMap Field.frame, by
        rw [preimage, preimage, ← List.flatMap_append, List.cons_append]⟩

theorem framing_injective_wide :
    (∀ f ∈ [.text "s", .digits "é😀", .integer (-255)], Field.Short f) ∧
    (∀ f ∈ [.text "s", .digits "é😀", .integer (-255), .bytes [5]], Field.Short f) ∧
    preimage "s" [.digits "é😀", .integer (-255)] ≠
      preimage "s" [.digits "é😀", .integer (-255), .bytes [5]] ∧
    preimage "s" [.digits "é😀", .integer (-255)] <+:
      preimage "s" [.digits "é😀", .integer (-255), .bytes [5]] := by
  have short : ∀ f ∈ [.text "s", .digits "é😀", .integer (-255)], Field.Short f := by
    decide +kernel
  have short' : ∀ f ∈ [.text "s", .digits "é😀", .integer (-255), .bytes [5]], Field.Short f := by
    decide +kernel
  obtain ⟨equal, front⟩ := framing_injective short short'
  refine ⟨short, short', fun same => ?_, front.mpr ⟨rfl, by decide⟩⟩
  exact absurd (equal.mp same).2 (by decide)

/-- What a fingerprint is taken of: a salt and the fields after it. -/
structure Description where
  salt : String
  fields : List Field
  deriving DecidableEq

namespace Description

def preimage (description : Description) : Bytes :=
  Fingerprint.preimage description.salt description.fields

def fingerprint (description : Description) : Fingerprint := .ofPreimage description.preimage

def Short (description : Description) : Prop :=
  ∀ field ∈ .text description.salt :: description.fields, field.Short

instance (description : Description) : Decidable description.Short :=
  inferInstanceAs (Decidable (∀ field ∈ _, Field.Short field))

theorem preimage_injective {left right : Description} (short : left.Short) (short' : right.Short)
    (same : left.preimage = right.preimage) : left = right := by
  rcases List.cons.inj (flatMap_frame_injective short short' same) with ⟨salts, fields⟩
  cases left
  cases right
  rw [Description.mk.injEq]
  exact ⟨Field.text.inj salts, fields⟩

end Description

/-- That the digest keeps the descriptions of a computation apart: every length fits into its frame,
and no two of the digested byte strings collide. -/
structure Faithful (hashed : List Description) : Prop where
  short : ∀ d ∈ hashed, d.Short
  apart : ∀ d ∈ hashed, ∀ e ∈ hashed, ofPreimage d.preimage = ofPreimage e.preimage →
    d.preimage = e.preimage

namespace Faithful

variable {hashed smaller : List Description}

theorem eq_of_fingerprint_eq (faithful : Faithful hashed) {d e : Description} (left : d ∈ hashed)
    (right : e ∈ hashed) (same : d.fingerprint = e.fingerprint) : d = e :=
  Description.preimage_injective (faithful.short d left) (faithful.short e right)
    (faithful.apart d left e right same)

theorem subset (faithful : Faithful hashed) (included : ∀ d ∈ smaller, d ∈ hashed) :
    Faithful smaller where
  short d present := faithful.short d (included d present)
  apart d left e right := faithful.apart d (included d left) e (included e right)

theorem of_pairwise (short : ∀ d ∈ hashed, d.Short)
    (distinct : hashed.Pairwise fun d e => d.fingerprint ≠ e.fingerprint) : Faithful hashed where
  short := short
  apart := by
    clear short
    induction distinct with
    | nil => exact fun d left => absurd left List.not_mem_nil
    | @cons d hashed different _ ih =>
        intro a left b right same
        rcases List.mem_cons.mp left with rfl | early <;> rcases List.mem_cons.mp right with rfl | late
        · rfl
        · exact absurd same (different b late)
        · exact absurd same.symm (different a early)
        · exact ih a early b late same

theorem of_prints {prints : List Fingerprint} (short : ∀ d ∈ hashed, d.Short)
    (same : hashed.map Description.fingerprint = prints) (distinct : prints.Nodup) :
    Faithful hashed :=
  of_pairwise short (List.pairwise_map.mp (same ▸ distinct))

end Faithful

end ExprWire.Fingerprint
