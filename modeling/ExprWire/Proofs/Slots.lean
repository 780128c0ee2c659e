import ExprWire.Decoder
import ExprWire.Proofs.Outcome
/-!
The slots of a decoder: what it comes to if one is added, one is filled, or something is loaded from
one. Beyond the last slot every position counts as empty, so adding an empty slot hides nothing and
shows nothing.
-/

namespace ExprWire

theorem Number.toNat?_eq_some_iff {index : Number} {position : Nat} :
    index.toNat? = some position ↔ index = .ofNat position := by
  constructor
  · intro denoted
    cases index with
    | whole n =>
        cases n with
        | ofNat n => exact congrArg Number.ofNat (Option.some.inj denoted)
        | negSucc n => exact absurd denoted nofun
    | other x notWhole => exact absurd denoted nofun
  · rintro rfl
    rfl

namespace Decoder

variable {decoder : Decoder} {position other limit : Nat} {slot : Slot}

def push (decoder : Decoder) (slot : Slot) : Decoder :=
  { decoder with slots := decoder.slots.push slot }

@[simp] theorem size_push (slot : Slot) : (decoder.push slot).size = decoder.size + 1 :=
  Array.size_push _

theorem slot_push_of_lt (slot : Slot) (old : position < decoder.size) :
    (decoder.push slot).slot position = decoder.slot position := by
  change (decoder.slots.push slot).getD position .empty = decoder.slots.getD position .empty
  rw [Array.getD_eq_getD_getElem?, Array.getD_eq_getD_getElem?, Array.getElem?_push_lt old,
    Array.getElem?_eq_getElem old]

theorem slot_push_last (slot : Slot) : (decoder.push slot).slot decoder.size = slot := by
  change (decoder.slots.push slot).getD decoder.slots.size .empty = slot
  rw [Array.getD_eq_getD_getElem?, Array.getElem?_push_size, Option.getD_some]

theorem slot_of_size_le (beyond : decoder.size ≤ position) : decoder.slot position = .empty :=
  Array.getD_eq_getD_getElem?.trans (by rw [Array.getElem?_eq_none beyond, Option.getD_none])

@[simp] theorem slot_push_empty (decoder : Decoder) :
    (decoder.push .empty).slot = decoder.slot := by
  funext position
  by_cases old : position < decoder.size
  · exact slot_push_of_lt .empty old
  · by_cases last : position = decoder.size
    · rw [last, slot_push_last, slot_of_size_le (Nat.le_refl _)]
    · have beyond : (decoder.push .empty).size ≤ position := by
        rw [size_push]
        omega
      rw [slot_of_size_le beyond, slot_of_size_le (by omega)]

def fill (decoder : Decoder) (position : Nat) (slot : Slot) : Decoder :=
  { decoder with slots := decoder.slots.setIfInBounds position slot }

@[simp] theorem size_fill (slot : Slot) : (decoder.fill position slot).size = decoder.size :=
  Array.size_setIfInBounds

theorem slot_fill_self (slot : Slot) (inside : position < decoder.size) :
    (decoder.fill position slot).slot position = slot := by
  change (decoder.slots.setIfInBounds position slot).getD position .empty = slot
  rw [Array.getD_eq_getD_getElem?, Array.getElem?_setIfInBounds_self_of_lt inside, Option.getD_some]

theorem slot_fill_of_ne (slot : Slot) (apart : other ≠ position) :
    (decoder.fill position slot).slot other = decoder.slot other := by
  change (decoder.slots.setIfInBounds position slot).getD other .empty =
    decoder.slots.getD other .empty
  rw [Array.getD_eq_getD_getElem?, Array.getD_eq_getD_getElem?,
    Array.getElem?_setIfInBounds_ne apart.symm]

theorem below?_eq_some_iff {index : Number} :
    below? limit index = some position ↔ index = .ofNat position ∧ position < limit := by
  rw [below?, ← Number.toNat?_eq_some_iff]
  cases index.toNat? with
  | none => simp
  | some denoted =>
      by_cases inside : denoted < limit
      · simp only [if_pos inside, Option.some.injEq]
        exact ⟨fun same => ⟨same, same ▸ inside⟩, And.left⟩
      · simp only [if_neg inside, Option.some.injEq, reduceCtorEq, false_iff, not_and]
        exact fun same => same ▸ inside

theorem loadValue_eq_ok_iff {index : Number} {v : Value} : decoder.loadValue limit index = .ok v ↔
    ∃ position, index = .ofNat position ∧ position < limit ∧
      (decoder.slot position).value = some v := by
  simp only [← and_assoc, ← below?_eq_some_iff]
  rw [loadValue]
  cases below? limit index with
  | none => exact ⟨nofun, fun ⟨_, missing, _⟩ => absurd missing nofun⟩
  | some position =>
      simp only [Option.some.injEq, exists_eq_left']
      rcases decoder.slot position with ⟨value, expr, codec⟩
      cases value with
      | some u => simp
      | none => cases expr <;> exact ⟨nofun, nofun⟩

theorem loadExpr_eq_ok_iff {index : Number} {e : Expr} : decoder.loadExpr limit index = .ok e ↔
    ∃ position, index = .ofNat position ∧ position < limit ∧
      (decoder.slot position).expr = some e := by
  simp only [← and_assoc, ← below?_eq_some_iff]
  rw [loadExpr]
  cases below? limit index with
  | none => exact ⟨nofun, fun ⟨_, missing, _⟩ => absurd missing nofun⟩
  | some position =>
      simp only [Option.some.injEq, exists_eq_left']
      rcases decoder.slot position with ⟨value, expr, codec⟩
      cases expr with
      | some d => cases value <;> simp
      | none => cases value <;> exact ⟨nofun, nofun⟩

theorem failsFor_loadValue (limit : Nat) (index : Number) :
    FailsFor Cause.OfInput (decoder.loadValue limit index) := by
  rw [loadValue]
  split
  · exact failsFor_raise rfl
  · split
    · exact failsFor_ok _
    · exact failsFor_raise rfl
    · exact failsFor_raise rfl

theorem failsFor_loadExpr (limit : Nat) (index : Number) :
    FailsFor Cause.OfInput (decoder.loadExpr limit index) := by
  rw [loadExpr]
  split
  · exact failsFor_raise rfl
  · split
    · exact failsFor_ok _
    · exact failsFor_raise rfl
    · exact failsFor_raise rfl

theorem loadValue_congr {left right : Decoder}
    (same : ∀ position < limit, left.slot position = right.slot position) :
    left.loadValue limit = right.loadValue limit := by
  funext index
  rw [loadValue, loadValue]
  cases found : below? limit index with
  | none => rfl
  | some position => simp only [same position (below?_eq_some_iff.mp found).2]

theorem loadExpr_congr {left right : Decoder}
    (same : ∀ position < limit, left.slot position = right.slot position) :
    left.loadExpr limit = right.loadExpr limit := by
  funext index
  rw [loadExpr, loadExpr]
  cases found : below? limit index with
  | none => rfl
  | some position => simp only [same position (below?_eq_some_iff.mp found).2]

end Decoder

end ExprWire
