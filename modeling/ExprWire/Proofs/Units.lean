import Mathlib.Data.List.Nodup
import ExprWire.Proofs.Bytes
/-!
Texts as sequences of 16-bit units. A text is determined by its units, so their order tells any two
texts apart, and sorting lists distinct texts strictly upwards. A sequence that was cut within a
surrogate pair is no text; `mended` puts U+FFFD for the half that is left.
-/

namespace ExprWire.Text

theorem unitsOfChar_append_inj {c d : Char} {rest other : List Nat}
    (same : unitsOfChar c ++ rest = unitsOfChar d ++ other) : c = d ∧ rest = other := by
  -- The halves of surrogate pairs are no characters.
  have left : c.toNat < 0xD800 ∨ 0xDFFF < c.toNat ∧ c.toNat < 0x110000 := c.valid
  have right : d.toNat < 0xD800 ∨ 0xDFFF < d.toNat ∧ d.toNat < 0x110000 := d.valid
  suffices numbers : c.toNat = d.toNat by
    have characters := Char.toNat_inj.mp numbers
    rw [characters] at same
    exact ⟨characters, List.append_cancel_left same⟩
  by_cases single : c.toNat < 0x10000 <;> by_cases single' : d.toNat < 0x10000 <;>
    simp only [unitsOfChar, single, single', if_true, if_false, List.cons_append, List.nil_append,
      List.cons.injEq] at same <;>
    omega

theorem units_injective {text word : String} (same : units text = units word) : text = word := by
  have characters {cs ds : List Char} (same : cs.flatMap unitsOfChar = ds.flatMap unitsOfChar) :
      cs = ds := by
    induction cs generalizing ds with
    | nil =>
        cases ds with
        | nil => rfl
        | cons d ds => simp [unitsOfChar_ne_nil] at same
    | cons c cs ih =>
        cases ds with
        | nil => simp [unitsOfChar_ne_nil] at same
        | cons d ds =>
            rw [List.flatMap_cons, List.flatMap_cons] at same
            have split := unitsOfChar_append_inj same
            rw [split.1, ih split.2]
  exact String.toList_inj.mp (characters same)

theorem compare_eq_lt_iff {us vs : List Nat} : compare us vs = .lt ↔ us < vs := by
  rw [List.compare_eq_compareLex]
  induction us generalizing vs with
  | nil => cases vs <;> simp [List.compareLex_nil_nil, List.compareLex_nil_cons]
  | cons u us ih =>
      cases vs with
      | nil => simp [List.compareLex_cons_nil]
      | cons v vs =>
          rw [List.compareLex_cons_cons, Ordering.then_eq_lt, ih, List.cons_lt_cons_iff,
            Nat.compare_eq_lt, Nat.compare_eq_eq]

theorem compareUnits_eq_lt_iff {text word : String} :
    compareUnits text word = .lt ↔ units text < units word :=
  compare_eq_lt_iff

theorem compareUnits_eq_eq {text word : String} (same : compareUnits text word = .eq) :
    text = word :=
  units_injective (Std.LawfulEqOrd.eq_of_compare same)

theorem unitsLe_trans (a b c : String) (first : unitsLe a b = true) (second : unitsLe b c = true) :
    unitsLe a c = true :=
  @Std.TransCmp.isLE_trans (List Nat) compare _ _ _ _ first second

theorem unitsLe_total (a b : String) : (unitsLe a b || unitsLe b a) = true := by
  have swapped : compareUnits a b = (compareUnits b a).swap :=
    @Std.OrientedCmp.eq_swap (List Nat) compare _ _ _
  rw [unitsLe, unitsLe, swapped]
  cases compareUnits b a <;> rfl

theorem mem_sortByUnits {text : String} {texts : List String} :
    text ∈ sortByUnits texts ↔ text ∈ texts :=
  List.mem_mergeSort

theorem sortByUnits_perm (texts : List String) : (sortByUnits texts).Perm texts :=
  List.mergeSort_perm texts unitsLe

theorem sortByUnits_strict {texts : List String} (distinct : texts.Nodup) :
    (sortByUnits texts).Pairwise fun a b => units a < units b := by
  have upwards : (sortByUnits texts).Pairwise fun a b => unitsLe a b = true :=
    List.pairwise_mergeSort unitsLe_trans unitsLe_total texts
  have apart : (sortByUnits texts).Nodup := (sortByUnits_perm texts).nodup_iff.mpr distinct
  refine (upwards.and apart).imp fun {a b} held => ?_
  apply compareUnits_eq_lt_iff.mp
  cases order : compareUnits a b with
  | lt => rfl
  | eq => exact absurd (compareUnits_eq_eq order) held.2
  | gt =>
      have below := held.1
      rw [unitsLe, order] at below
      cases below

def isHigh (u : Nat) : Bool := 0xD800 ≤ u && u < 0xDC00

def isLow (u : Nat) : Bool := 0xDC00 ≤ u && u < 0xE000

/-- The units of a text: half a surrogate pair that stands alone becomes U+FFFD. -/
def mended : List Nat → List Nat
  | [] => []
  | [u] => if isHigh u || isLow u then [0xFFFD] else [u]
  | u :: v :: us =>
      if isHigh u && isLow v then u :: v :: mended us
      else (if isHigh u || isLow u then 0xFFFD else u) :: mended (v :: us)

/-- That units stand for characters, up to first halves of pairs that were cut off before a dot. -/
inductive Spells : List Nat → List Char → Prop where
  | nil : Spells [] []
  | char (c : Char) {us : List Nat} {cs : List Char} (rest : Spells us cs) :
      Spells (unitsOfChar c ++ us) (c :: cs)
  | half {u : Nat} (high : isHigh u = true) {us : List Nat} {cs : List Char}
      (rest : Spells (0x2E :: us) ('.' :: cs)) : Spells (u :: 0x2E :: us) ('\uFFFD' :: '.' :: cs)

theorem unitsOfChar_eq_single {c : Char} (small : c.toNat < 0x10000) :
    unitsOfChar c = [c.toNat] ∧ isHigh c.toNat = false ∧ isLow c.toNat = false := by
  have scalar : c.toNat < 0xD800 ∨ 0xDFFF < c.toNat ∧ c.toNat < 0x110000 := c.valid
  refine ⟨by rw [unitsOfChar, if_pos small], ?_⟩
  simp only [isHigh, isLow, Bool.and_eq_false_iff, decide_eq_false_iff_not]
  omega

theorem unitsOfChar_eq_pair {c : Char} (large : ¬c.toNat < 0x10000) :
    ∃ high low, unitsOfChar c = [high, low] ∧ isHigh high = true ∧ isLow low = true := by
  have scalar : c.toNat < 0xD800 ∨ 0xDFFF < c.toNat ∧ c.toNat < 0x110000 := c.valid
  refine ⟨_, _, by rw [unitsOfChar, if_neg large], ?_⟩
  simp only [isHigh, isLow, Bool.and_eq_true, decide_eq_true_eq]
  omega

theorem takeUnits_single {c : Char} (small : c.toNat < 0x10000) (n : Nat) (cs : List Char) :
    takeUnits (n + 1) (c :: cs) = c :: takeUnits n cs := by
  cases n <;> exact if_pos small

theorem takeUnits_split {c : Char} (large : ¬c.toNat < 0x10000) (cs : List Char) :
    takeUnits 1 (c :: cs) = ['\uFFFD'] :=
  if_neg large

theorem takeUnits_pair {c : Char} (large : ¬c.toNat < 0x10000) (n : Nat) (cs : List Char) :
    takeUnits (n + 2) (c :: cs) = c :: takeUnits n cs :=
  if_neg large

theorem mended_cons {u : Nat} (high : isHigh u = false) (low : isLow u = false) (us : List Nat) :
    mended (u :: us) = u :: mended us := by
  cases us <;> simp [mended, high, low]

namespace Spells

theorem text (text : String) : Spells (units text) text.toList := by
  rw [units]
  induction text.toList with
  | nil => exact .nil
  | cons c cs ih => exact .char c ih

theorem append {us vs : List Nat} {cs ds : List Char} (first : Spells us cs)
    (second : Spells vs ds) : Spells (us ++ vs) (cs ++ ds) := by
  induction first with
  | nil => exact second
  | char c _ ih =>
      rw [List.append_assoc]
      exact .char c ih
  | half high _ ih => exact .half high ih

theorem length_eq {us : List Nat} {cs : List Char} (spells : Spells us cs) :
    us.length = (cs.flatMap unitsOfChar).length := by
  induction spells with
  | nil => rfl
  | char c _ ih => rw [List.flatMap_cons, List.length_append, List.length_append, ih]
  | half _ _ ih => exact congrArg (· + 1) ih

theorem mended_eq {us : List Nat} {cs : List Char} (spells : Spells us cs) :
    mended us = cs.flatMap unitsOfChar := by
  induction spells with
  | nil => rfl
  | char c _ ih =>
      by_cases small : c.toNat < 0x10000
      · obtain ⟨spelled, high, low⟩ := unitsOfChar_eq_single small
        rw [List.flatMap_cons, spelled, List.singleton_append, List.singleton_append,
          mended_cons high low, ih]
      · obtain ⟨high, low, spelled, first, second⟩ := unitsOfChar_eq_pair small
        rw [List.flatMap_cons, spelled, ← ih]
        simp [mended, first, second]
  | half high _ ih =>
      have alone : isLow 0x2E = false := rfl
      rw [mended, alone, Bool.and_false, if_neg Bool.false_ne_true, high, Bool.true_or, if_pos rfl,
        ih]
      rfl

theorem cut {us : List Nat} {cs : List Char} (spells : Spells us cs) (n : Nat) :
    Spells (us.take n ++ units "...") (takeUnits n cs ++ "...".toList) := by
  have dots : Spells (units "...") "...".toList := .text "..."
  induction spells generalizing n with
  | nil =>
      rw [List.take_nil, show takeUnits n [] = [] by cases n <;> rfl]
      exact dots
  | char c rest ih =>
      by_cases small : c.toNat < 0x10000
      · obtain ⟨spelled, -, -⟩ := unitsOfChar_eq_single small
        cases n with
        | zero => exact dots
        | succ n =>
            have grown := Spells.char c (ih n)
            rw [takeUnits_single small, spelled]
            rwa [spelled] at grown
      · obtain ⟨high, low, spelled, first, second⟩ := unitsOfChar_eq_pair small
        rw [spelled]
        match n with
        | 0 => exact dots
        -- The cut goes through the pair.
        | 1 =>
            rw [takeUnits_split small]
            exact .half first dots
        | n + 2 =>
            have grown := Spells.char c (ih n)
            rw [takeUnits_pair small]
            rwa [spelled] at grown
  | @half u high us cs rest ih =>
      have replacement : '\uFFFD'.toNat < 0x10000 := by decide
      have dot : '.'.toNat < 0x10000 := by decide
      match n with
      | 0 => exact dots
      | 1 =>
          rw [takeUnits_single replacement]
          exact .half high dots
      | n + 2 =>
          have shorter := ih (n + 1)
          rw [takeUnits_single dot] at shorter
          rw [takeUnits_single replacement, takeUnits_single dot]
          exact .half high shorter

end Spells

end ExprWire.Text

namespace ExprWire

theorem nodup_eraseDups {α : Type} [BEq α] [LawfulBEq α] (xs : List α) : xs.eraseDups.Nodup := by
  cases xs with
  | nil => simp
  | cons x xs =>
      rw [List.eraseDups_cons, List.nodup_cons]
      constructor
      · simp
      · exact nodup_eraseDups (xs.filter fun y => !y == x)
termination_by xs.length
decreasing_by
  have := List.length_filter_le (fun y => !y == x) xs
  rw [List.length_cons]
  omega

end ExprWire
