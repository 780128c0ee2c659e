/-!
Lists that grow at the end. What stands at a position stays there, and so does what is found under a
key; only the last entry is new.
-/

namespace ExprWire

variable {α κ : Type} {xs ys : List α} {x y : α} {position : Nat}

theorem getElem?_append_of_some (found : xs[position]? = some x) :
    (xs ++ ys)[position]? = some x := by
  rcases List.getElem?_eq_some_iff.mp found with ⟨inside, -⟩
  rw [List.getElem?_append_left inside, found]

theorem getElem?_push : (xs ++ [x])[position]? = some y ↔
    xs[position]? = some y ∨ position = xs.length ∧ x = y := by
  by_cases old : position < xs.length
  · rw [List.getElem?_append_left old]
    exact ⟨.inl, fun held => held.elim id fun ⟨last, _⟩ => absurd last (Nat.ne_of_lt old)⟩
  · have none : xs[position]? = none := List.getElem?_eq_none (Nat.le_of_not_lt old)
    rw [none]
    constructor
    · intro found
      have bound := (List.getElem?_eq_some_iff.mp found).choose
      rw [List.length_append, List.length_singleton] at bound
      have last : position = xs.length := by omega
      subst last
      rw [List.getElem?_concat_length] at found
      exact .inr ⟨rfl, Option.some.inj found⟩
    · intro stored
      rcases stored with found | ⟨rfl, rfl⟩
      · exact absurd found nofun
      · exact List.getElem?_concat_length

theorem getElem?_of_prefixOf (grown : xs <+: ys) (found : xs[position]? = some x) :
    ys[position]? = some x := by
  rcases grown with ⟨more, rfl⟩
  exact getElem?_append_of_some found

variable [BEq κ] {entries more : List (κ × α)} {key other : κ}

theorem lookup_append_of_some (found : entries.lookup key = some x) :
    (entries ++ more).lookup key = some x := by
  rw [List.lookup_append, found]
  rfl

theorem lookup_of_prefixOf {later : List (κ × α)} (grown : entries <+: later)
    (found : entries.lookup key = some x) : later.lookup key = some x := by
  rcases grown with ⟨more, rfl⟩
  exact lookup_append_of_some found

theorem lookup_map_snd {β : Type} (f : α → β) (entries : List (κ × α)) (key : κ) :
    (entries.map fun entry => (entry.1, f entry.2)).lookup key = (entries.lookup key).map f := by
  induction entries with
  | nil => rfl
  | cons entry entries ih =>
      rw [List.map_cons, List.lookup_cons, List.lookup_cons, ih]
      split <;> rfl

variable [LawfulBEq κ]

theorem lookup_push (fresh : entries.lookup key = none) :
    (entries ++ [(key, x)]).lookup other = some y ↔
      entries.lookup other = some y ∨ other = key ∧ x = y := by
  rw [List.lookup_append]
  by_cases same : other = key
  · subst same
    simp [fresh]
  · have apart : (other == key) = false := beq_eq_false_iff_ne.mpr same
    simp [List.lookup_cons, apart, same]

theorem mem_of_lookup (found : entries.lookup key = some x) : (key, x) ∈ entries := by
  rcases List.lookup_eq_some_iff.mp found with ⟨before, behind, split, -⟩
  rw [split]
  exact List.mem_append_right _ List.mem_cons_self

end ExprWire
