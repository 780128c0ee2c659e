import Mathlib.Data.List.Forall2
import ExprWire.Fault
/-!
Outcomes. An operation of several parts succeeds exactly if its parts do, and what it gives is put
together from what they give.
-/

namespace ExprWire

variable {α β γ : Type} {outcome : Outcome α}

theorem raise_eq (cause : Cause) : (raise cause : Outcome α) = .error (.of cause) := rfl

theorem annotate_eq_ok_iff {note : Note} {a : α} :
    annotate note outcome = .ok a ↔ outcome = .ok a := by
  cases outcome with
  | error problem => exact ⟨nofun, nofun⟩
  | ok _ => exact Iff.rfl

theorem bind_eq_ok_iff {next : α → Outcome β} {b : β} :
    outcome >>= next = .ok b ↔ ∃ a, outcome = .ok a ∧ next a = .ok b := by
  cases outcome with
  | error problem => exact ⟨nofun, fun ⟨_, failed, _⟩ => absurd failed nofun⟩
  | ok a =>
      constructor
      · exact fun accepted => ⟨a, rfl, accepted⟩
      · rintro ⟨_, same, accepted⟩
        rwa [← Except.ok.inj same] at accepted

theorem bind_eq_error_iff {next : α → Outcome β} {problem : Problem} :
    outcome >>= next = .error problem ↔
      outcome = .error problem ∨ ∃ a, outcome = .ok a ∧ next a = .error problem := by
  cases outcome with
  | error other =>
      exact ⟨fun failed => .inl (congrArg Except.error (Except.error.inj failed)),
        fun failed => failed.elim (fun same => congrArg Except.error (Except.error.inj same))
          fun ⟨_, other, _⟩ => absurd other nofun⟩
  | ok a =>
      constructor
      · exact fun failed => .inr ⟨a, rfl, failed⟩
      · rintro (failed | ⟨_, same, failed⟩)
        · cases failed
        · rwa [← Except.ok.inj same] at failed

theorem mapM_eq_ok_iff {f : α → Outcome β} {xs : List α} {ys : List β} :
    xs.mapM f = .ok ys ↔ List.Forall₂ (fun x y => f x = .ok y) xs ys := by
  induction xs generalizing ys with
  | nil =>
      rw [List.mapM_nil, List.forall₂_nil_left_iff]
      exact ⟨fun same => (Except.ok.inj same).symm, fun same => congrArg Except.ok same.symm⟩
  | cons x xs ih =>
      simp only [List.mapM_cons, bind_eq_ok_iff, ih, List.forall₂_cons_left_iff]
      constructor
      · rintro ⟨y, first, rest, others, same⟩
        exact ⟨y, rest, first, others, (Except.ok.inj same).symm⟩
      · rintro ⟨y, rest, first, others, rfl⟩
        exact ⟨y, first, rest, others, rfl⟩

theorem mapM_map_eq_ok_iff {f : α → Outcome β} {g : γ → Outcome β} {rename : α → γ} {xs : List α}
    {ys : List β} (same : ∀ x ∈ xs, ∀ y, f x = .ok y ↔ g (rename x) = .ok y) :
    xs.mapM f = .ok ys ↔ (xs.map rename).mapM g = .ok ys := by
  simp only [mapM_eq_ok_iff]
  induction xs generalizing ys with
  | nil => simp
  | cons x xs ih =>
      have others (ys : List β) : List.Forall₂ (fun x y => f x = .ok y) xs ys ↔
          List.Forall₂ (fun z y => g z = .ok y) (xs.map rename) ys :=
        ih fun x listed => same x (List.mem_cons_of_mem _ listed)
      simp only [List.map_cons, List.forall₂_cons_left_iff, same x List.mem_cons_self, others]

theorem map_eq_error_iff {f : α → β} {problem : Problem} :
    outcome.map f = .error problem ↔ outcome = .error problem := by
  cases outcome <;> simp [Except.map]

theorem annotate_ne_raise (note : Note) (outcome : Outcome α) (cause : Cause) :
    annotate note outcome ≠ raise cause := by
  intro same
  cases outcome with
  | ok a => exact absurd same nofun
  | error problem =>
      have noted := Problem.fault.inj (Except.error.inj same)
      cases problem with
      | fault inner => simpa [Problem.withNote, Fault.addNote] using congrArg Fault.notes noted
      | foreign thrown => simpa [Problem.withNote] using congrArg Fault.notes noted

/-- Whether a cause lies in what was given: it is an invalid argument, and not the complaint of an
accessor that a value is of another type. -/
def Cause.OfInput : Cause → Prop
  | .typeMismatch _ _ => False
  | cause => cause.status = .invalidArgument

theorem Cause.OfInput.status_eq {cause : Cause} (blamed : cause.OfInput) :
    cause.status = .invalidArgument := by
  unfold OfInput at blamed
  split at blamed
  · exact blamed.elim
  · exact blamed

/-- That an operation fails, if it does, for a cause of some kind. -/
def FailsFor (kind : Cause → Prop) (outcome : Outcome α) : Prop :=
  ∀ problem, outcome = .error problem → ∃ fault, problem = .fault fault ∧ kind fault.cause

section

variable {kind kind' : Cause → Prop}

theorem failsFor_ok (a : α) : FailsFor kind (.ok a : Outcome α) := nofun

theorem failsFor_raise {cause : Cause} (held : kind cause) :
    FailsFor kind (raise cause : Outcome α) := by
  rintro _ ⟨⟩
  exact ⟨⟨cause, []⟩, rfl, held⟩

theorem FailsFor.mono (fails : FailsFor kind outcome) (wider : ∀ cause, kind cause → kind' cause) :
    FailsFor kind' outcome := by
  intro problem failed
  rcases fails problem failed with ⟨fault, same, held⟩
  exact ⟨fault, same, wider fault.cause held⟩

theorem FailsFor.bind {next : α → Outcome β} (fails : FailsFor kind outcome)
    (others : ∀ a, outcome = .ok a → FailsFor kind (next a)) :
    FailsFor kind (outcome >>= next) := by
  cases outcome with
  | ok a => exact others a rfl
  | error problem =>
      rintro _ ⟨⟩
      exact fails problem rfl

theorem FailsFor.annotate (fails : FailsFor kind outcome) (note : Note) :
    FailsFor kind (annotate note outcome) := by
  cases outcome with
  | ok a => exact failsFor_ok a
  | error problem =>
      rintro _ ⟨⟩
      rcases fails problem rfl with ⟨fault, rfl, held⟩
      exact ⟨fault.addNote note, rfl, held⟩

theorem failsFor_mapM {f : α → Outcome β} (each : ∀ x, FailsFor kind (f x)) (xs : List α) :
    FailsFor kind (xs.mapM f) := by
  induction xs with
  | nil => exact failsFor_ok []
  | cons x xs ih =>
      rw [List.mapM_cons]
      exact (each x).bind fun y _ => ih.bind fun ys _ => failsFor_ok (y :: ys)

end

theorem annotate_map (note : Note) (f : α → β) (outcome : Outcome α) :
    annotate note (outcome.map f) = (annotate note outcome).map f := by
  cases outcome <;> rfl

theorem bind_map (outcome : Outcome α) (next : α → Outcome β) (f : β → γ) :
    (outcome >>= fun a => (next a).map f) = (outcome >>= next).map f := by
  cases outcome <;> rfl

end ExprWire
