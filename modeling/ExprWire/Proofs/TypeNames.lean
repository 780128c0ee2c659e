import ExprWire.ValueType
/-!
Names of types. The name of a tuple type can be taken apart again, so no two types share a name.
-/

namespace ExprWire.ValueType

theorem induction {motive : ValueType → Prop} (plain : ∀ type ∈ operator :: scalars, motive type)
    (tuple : ∀ fields, (∀ field ∈ fields, motive field) → motive (.tuple fields))
    (type : ValueType) : motive type :=
  ValueType.rec (motive_1 := motive) (motive_2 := fun fields => ∀ field ∈ fields, motive field)
    (plain _ (by simp [scalars])) (plain _ (by simp [scalars])) (plain _ (by simp [scalars]))
    (plain _ (by simp [scalars])) (plain _ (by simp [scalars])) (plain _ (by simp [scalars]))
    (plain _ (by simp [scalars])) (plain _ (by simp [scalars])) (plain _ (by simp [scalars])) tuple
    (fun _ present => absurd present List.not_mem_nil)
    (fun _ _ first others field present => by
      rcases List.mem_cons.mp present with rfl | later
      · exact first
      · exact others field later)
    type

/-- What may follow the name of a field: nothing, a comma, or the end of the tuple. -/
def Stops (rest : List Char) : Prop := ∀ c ∈ rest.head?, c = ',' ∨ c = '>'

theorem stops_nil : Stops [] := fun _ present => absurd present (Option.not_mem_none _)

theorem word_append_inj {xs ys rest tail : List Char} (left : ∀ c ∈ xs, c ≠ ',' ∧ c ≠ '>')
    (right : ∀ c ∈ ys, c ≠ ',' ∧ c ≠ '>') (stops : Stops rest) (stops' : Stops tail)
    (same : xs ++ rest = ys ++ tail) : xs = ys ∧ rest = tail := by
  induction xs generalizing ys with
  | nil =>
      cases ys with
      | nil => exact ⟨rfl, same⟩
      | cons y ys =>
          have heads : rest.head? = some y := congrArg List.head? same
          have := right y List.mem_cons_self
          rcases stops y heads with rfl | rfl <;> simp at this
  | cons x xs ih =>
      cases ys with
      | nil =>
          have heads : some x = tail.head? := congrArg List.head? same
          have := left x List.mem_cons_self
          rcases stops' x heads.symm with rfl | rfl <;> simp at this
      | cons y ys =>
          rcases List.cons.inj same with ⟨rfl, others⟩
          obtain ⟨rfl, rests⟩ := ih (fun c present => left c (List.mem_cons_of_mem _ present))
            (fun c present => right c (List.mem_cons_of_mem _ present)) others
          exact ⟨rfl, rests⟩

theorem plain_name_word (type : ValueType) (plain : type ∈ operator :: scalars) :
    ∀ c ∈ type.name.toList, c ≠ ',' ∧ c ≠ '>' := by
  have table : ∀ type ∈ operator :: scalars,
      (type.name.toList.all fun c => c != ',' && c != '>') = true := by decide
  intro c present
  have word := List.all_eq_true.mp (table type plain) c present
  rwa [Bool.and_eq_true, bne_iff_ne, bne_iff_ne] at word

theorem plain_eq_of_name_eq {left right : ValueType} (plain : left ∈ operator :: scalars)
    (plain' : right ∈ operator :: scalars) (same : left.name = right.name) : left = right := by
  simp only [scalars, List.mem_cons, List.not_mem_nil, or_false] at plain plain'
  rcases plain with rfl | rfl | rfl | rfl | rfl | rfl | rfl | rfl | rfl <;>
    rcases plain' with rfl | rfl | rfl | rfl | rfl | rfl | rfl | rfl | rfl <;>
    first | rfl | exact absurd same (by decide)

def closing : List ValueType → List Char
  | [] => ['>']
  | field :: fields => ',' :: field.name.toList ++ closing fields

theorem stops_closing (fields : List ValueType) (rest : List Char) :
    Stops (closing fields ++ rest) := by
  intro c head
  cases fields with
  | nil => exact .inr (Option.some.inj head).symm
  | cons field fields => exact .inl (Option.some.inj head).symm

theorem toList_intercalate_names (field : ValueType) (fields : List ValueType) :
    (",".intercalate (names (field :: fields))).toList ++ ['>'] =
      field.name.toList ++ closing fields := by
  induction fields generalizing field with
  | nil => rw [names, names, String.intercalate_singleton, closing]
  | cons other fields ih =>
      rw [names, names, String.intercalate_cons_cons, String.toList_append, String.toList_append,
        List.append_assoc, ← names, ih other, closing, List.append_assoc]
      rfl

def body : List ValueType → List Char
  | [] => ['>']
  | field :: fields => field.name.toList ++ closing fields

theorem toList_name_tuple (fields : List ValueType) :
    (tuple fields).name.toList = "tuple<".toList ++ body fields := by
  rw [name, tupleName, String.toList_append, String.toList_append, List.append_assoc]
  cases fields with
  | nil => rfl
  | cons field fields => exact congrArg _ (toList_intercalate_names field fields)

theorem plain_append_ne_tuple {type : ValueType} (plain : type ∈ operator :: scalars)
    (fields : List ValueType) (rest tail : List Char) :
    type.name.toList ++ rest ≠ (tuple fields).name.toList ++ tail := by
  have table : ∀ type ∈ operator :: scalars, ∃ c cs, type.name.toList = c :: cs ∧ c ≠ 't' := by
    simp [scalars, name]
  rcases table type plain with ⟨c, cs, spelled, different⟩
  rw [toList_name_tuple, spelled]
  intro same
  exact different (List.cons.inj same).1

theorem name_head_ne (type : ValueType) {c : Char} (stop : c = ',' ∨ c = '>')
    (rest tail : List Char) : type.name.toList ++ rest ≠ c :: tail := by
  have table : ∀ type ∈ operator :: scalars,
      ∃ c cs, type.name.toList = c :: cs ∧ c ≠ ',' ∧ c ≠ '>' := by
    simp [scalars, name]
  have head : ∃ c cs, type.name.toList = c :: cs ∧ c ≠ ',' ∧ c ≠ '>' := by
    induction type using induction with
    | plain type plain => exact table type plain
    | tuple fields => exact ⟨'t', _, toList_name_tuple fields, by decide, by decide⟩
  rcases head with ⟨d, ds, spelled, comma, bracket⟩
  rw [spelled]
  intro same
  have first : d = c := (List.cons.inj same).1
  rcases stop with rfl | rfl
  · exact comma first
  · exact bracket first

def Delimited (type : ValueType) : Prop :=
  ∀ (other : ValueType) (rest tail : List Char), Stops rest → Stops tail →
    type.name.toList ++ rest = other.name.toList ++ tail → type = other ∧ rest = tail

theorem closing_append_inj {fields others : List ValueType} {rest tail : List Char}
    (delimited : ∀ field ∈ fields, field.Delimited)
    (same : closing fields ++ rest = closing others ++ tail) : fields = others ∧ rest = tail := by
  induction fields generalizing others with
  | nil =>
      cases others with
      | nil => exact ⟨rfl, (List.cons.inj same).2⟩
      | cons other others => exact absurd (List.cons.inj same).1 (by decide)
  | cons field fields ih =>
      cases others with
      | nil => exact absurd (List.cons.inj same).1 (by decide)
      | cons other others =>
          have names : field.name.toList ++ closing fields ++ rest =
              other.name.toList ++ closing others ++ tail := (List.cons.inj same).2
          rw [List.append_assoc, List.append_assoc] at names
          obtain ⟨rfl, rests⟩ := delimited field List.mem_cons_self other _ _
            (stops_closing fields rest) (stops_closing others tail) names
          obtain ⟨rfl, tails⟩ := ih
            (fun field present => delimited field (List.mem_cons_of_mem _ present)) rests
          exact ⟨rfl, tails⟩

theorem body_append_inj {fields others : List ValueType} {rest tail : List Char}
    (delimited : ∀ field ∈ fields, field.Delimited)
    (same : body fields ++ rest = body others ++ tail) : fields = others ∧ rest = tail := by
  cases fields with
  | nil =>
      cases others with
      | nil => exact ⟨rfl, (List.cons.inj same).2⟩
      | cons other others =>
          rw [body, body, List.append_assoc] at same
          exact absurd same.symm (name_head_ne _ (.inr rfl) _ _)
  | cons field fields =>
      cases others with
      | nil =>
          rw [body, body, List.append_assoc] at same
          exact absurd same (name_head_ne _ (.inr rfl) _ _)
      | cons other others =>
          rw [body, body, List.append_assoc, List.append_assoc] at same
          obtain ⟨rfl, rests⟩ := delimited field List.mem_cons_self other _ _
            (stops_closing fields rest) (stops_closing others tail) same
          obtain ⟨rfl, tails⟩ := closing_append_inj
            (fun field present => delimited field (List.mem_cons_of_mem _ present)) rests
          exact ⟨rfl, tails⟩

theorem delimited (type : ValueType) : type.Delimited := by
  induction type using induction with
  | plain type plain =>
      intro other rest tail stops stops' same
      induction other using induction with
      | plain other plain' =>
          obtain ⟨words, rests⟩ := word_append_inj (plain_name_word type plain)
            (plain_name_word other plain') stops stops' same
          exact ⟨plain_eq_of_name_eq plain plain' (String.toList_inj.mp words), rests⟩
      | tuple fields => exact absurd same (plain_append_ne_tuple plain fields rest tail)
  | tuple fields ih =>
      intro other rest tail stops stops' same
      induction other using induction with
      | plain other plain' => exact absurd same.symm (plain_append_ne_tuple plain' fields tail rest)
      | tuple others =>
          rw [toList_name_tuple, toList_name_tuple, List.append_assoc, List.append_assoc] at same
          rcases body_append_inj ih (List.append_cancel_left same) with ⟨rfl, rests⟩
          exact ⟨rfl, rests⟩

theorem name_injective {left right : ValueType} (same : left.name = right.name) : left = right :=
  (delimited left right [] [] stops_nil stops_nil (by rw [same])).1

instance : LawfulBEq ValueType where
  rfl {type} := beq_self_eq_true type.name
  eq_of_beq same := name_injective (eq_of_beq same)

end ExprWire.ValueType
