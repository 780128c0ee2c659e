import Mathlib.Data.List.Forall2
import Mathlib.Data.List.Nodup
import ExprWire.Proofs.Growth
import ExprWire.Proofs.TypeNames
import ExprWire.ValueType.Table
/-!
Tables of types. Every object of a table stands for a type of its own, and bears its name; since
names are unambiguous, what is found under a name has the fields that were asked for.
-/

namespace ExprWire.TypeTable

variable {table after : TypeTable} {types more parts : List ValueType} {fields : List Nat}
  {result : Nat}

def Stand (types : List ValueType) (fields : List Nat) (parts : List ValueType) : Prop :=
  List.Forall₂ (fun position part => types[position]? = some part) fields parts

inductive Made (types : List ValueType) : ValueType → TypeObject → Prop where
  | plain {type : ValueType} (listed : type ∈ plain) : Made types type ⟨type.name, type.key, none⟩
  | tuple {fields : List Nat} {parts : List ValueType} (stand : Stand types fields parts) :
      Made types (.tuple parts) ⟨(ValueType.tuple parts).name, ValueType.tupleKey, some fields⟩

/-- That the objects of a table are those of different types, and its names those of all tuple
types among them. -/
structure Sound (table : TypeTable) (types : List ValueType) : Prop where
  initial : plain <+: types
  made : List.Forall₂ (Made types) types table.objects
  distinct : types.Nodup
  named : ∀ parts position, table.tuples.lookup (ValueType.tuple parts).name = some position ↔
    types[position]? = some (.tuple parts)

theorem Stand.append (stand : Stand types fields parts) : Stand (types ++ more) fields parts :=
  stand.imp fun _ _ found => getElem?_append_of_some found

theorem Made.append {type : ValueType} {object : TypeObject} (made : Made types type object) :
    Made (types ++ more) type object := by
  cases made with
  | plain listed => exact .plain listed
  | tuple stand => exact .tuple stand.append

theorem Made.name_eq {type : ValueType} {object : TypeObject} (made : Made types type object) :
    object.name = type.name := by
  cases made <;> rfl

theorem not_tuple_of_plain (parts : List ValueType) : .tuple parts ∉ plain := by
  simp [plain, ValueType.scalars]

theorem Stand.eq_iff (distinct : types.Nodup) {fields' : List Nat} {parts' : List ValueType}
    (stand : Stand types fields parts) (stand' : Stand types fields' parts') :
    fields = fields' ↔ parts = parts' := by
  constructor
  · rintro rfl
    induction stand generalizing parts' with
    | nil => cases stand'; rfl
    | cons found _ ih =>
        cases stand' with
        | cons found' others =>
            rw [Option.some.inj (found.symm.trans found'), ih others]
  · rintro rfl
    induction stand generalizing fields' with
    | nil => cases stand'; rfl
    | cons found _ ih =>
        cases stand' with
        | cons found' others =>
            have inside := (List.getElem?_eq_some_iff.mp found).1
            rw [(List.getElem?_inj inside distinct).mp (found.trans found'.symm), ih others]

theorem exists_stand (inside : ∀ field ∈ fields, field < types.length) :
    ∃ parts, Stand types fields parts := by
  induction fields with
  | nil => exact ⟨[], .nil⟩
  | cons field fields ih =>
      obtain ⟨parts, stand⟩ := ih fun other listed => inside other (List.mem_cons_of_mem _ listed)
      exact ⟨_, .cons (List.getElem?_eq_getElem (inside field List.mem_cons_self)) stand⟩

namespace Sound

theorem exists_object (sound : Sound table types) {position : Nat} {type : ValueType}
    (found : types[position]? = some type) :
    ∃ object, table.objects[position]? = some object ∧ Made types type object := by
  obtain ⟨inside, rfl⟩ := List.getElem?_eq_some_iff.mp found
  have inside' := sound.made.length_eq ▸ inside
  exact ⟨_, List.getElem?_eq_getElem inside', sound.made.get inside inside'⟩

theorem fields_eq (sound : Sound table types) {position : Nat}
    (found : types[position]? = some (.tuple parts)) (stand : Stand types fields parts) :
    ∃ object, table.objects[position]? = some object ∧ object.fields = some fields := by
  obtain ⟨object, held, made⟩ := sound.exists_object found
  refine ⟨object, held, ?_⟩
  cases made with
  | plain listed => exact absurd listed (not_tuple_of_plain parts)
  | tuple stand' => rw [(stand'.eq_iff sound.distinct stand).mpr rfl]

theorem mapM_objects (sound : Sound table types) (stand : Stand types fields parts) :
    ∃ objects, fields.mapM (fun position => table.objects[position]?) = some objects ∧
      ValueType.tupleName (objects.map TypeObject.name) = (ValueType.tuple parts).name := by
  suffices listed : ∃ objects,
      fields.mapM (fun position => table.objects[position]?) = some objects ∧
        objects.map TypeObject.name = parts.map ValueType.name by
    obtain ⟨objects, found, same⟩ := listed
    exact ⟨objects, found, by rw [same, ValueType.name, ValueType.names_eq_map]⟩
  induction stand with
  | nil => exact ⟨[], rfl, rfl⟩
  | cons found _ ih =>
      obtain ⟨object, held, made⟩ := sound.exists_object found
      obtain ⟨objects, others, same⟩ := ih
      refine ⟨object :: objects, ?_, ?_⟩
      · rw [List.mapM_cons, held, others]
        rfl
      · rw [List.map_cons, List.map_cons, made.name_eq, same]

theorem push (sound : Sound table types) (stand : Stand types fields parts)
    (unknown : table.tuples.lookup (ValueType.tuple parts).name = none) :
    Sound ⟨table.objects ++ [⟨(ValueType.tuple parts).name, ValueType.tupleKey, some fields⟩],
      table.tuples ++ [((ValueType.tuple parts).name, table.objects.length)]⟩
      (types ++ [.tuple parts]) where
  initial := sound.initial.trans (List.prefix_append _ _)
  made := List.rel_append (sound.made.imp fun _ _ made => made.append)
    (.cons (.tuple stand.append) .nil)
  distinct := by
    refine List.nodup_append.mpr ⟨sound.distinct, List.pairwise_singleton _ _, ?_⟩
    rintro type listed _ last rfl
    obtain rfl := List.mem_singleton.mp last
    obtain ⟨position, found⟩ := List.getElem?_of_mem listed
    rw [(sound.named parts position).mpr found] at unknown
    cases unknown
  named others position := by
    have same : (ValueType.tuple others).name = (ValueType.tuple parts).name ↔
        ValueType.tuple parts = ValueType.tuple others :=
      ⟨fun names => (ValueType.name_injective names).symm, fun types => congrArg _ types.symm⟩
    rw [lookup_push unknown, getElem?_push, sound.named, sound.made.length_eq, same, and_comm,
      eq_comm (a := position)]

theorem tuple (sound : Sound table types) (stand : Stand types fields parts) :
    ∃ result after more, table.tuple fields = some (result, after) ∧ Sound after (types ++ more) ∧
      (types ++ more)[result]? = some (.tuple parts) ∧ table.objects <+: after.objects := by
  obtain ⟨objects, found, name⟩ := sound.mapM_objects stand
  cases looked : table.tuples.lookup (ValueType.tuple parts).name with
  | some position =>
      refine ⟨position, table, [], ?_, ?_, ?_, List.prefix_refl _⟩
      · simp [TypeTable.tuple, found, name, looked]
      · rwa [List.append_nil]
      · rw [List.append_nil]
        exact (sound.named parts position).mp looked
  | none =>
      refine ⟨table.objects.length, _, [.tuple parts], ?_, sound.push stand looked, ?_,
        List.prefix_append _ _⟩
      · simp [TypeTable.tuple, found, name, looked]
      · exact getElem?_push.mpr (.inr ⟨sound.made.length_eq.symm, rfl⟩)

theorem nodup_names (sound : Sound table types) :
    (table.objects.map TypeObject.name).Nodup := by
  have same : List.Forall₂ Eq (table.objects.map TypeObject.name) (types.map ValueType.name) :=
    List.forall₂_map_left_iff.mpr (List.forall₂_map_right_iff.mpr
      (sound.made.flip.imp fun _ _ made => made.name_eq))
  rw [List.forall₂_eq_eq_eq] at same
  rw [same]
  exact sound.distinct.map fun _ _ same => ValueType.name_injective same

end Sound

theorem sound_start : Sound start plain where
  initial := List.prefix_refl _
  made := List.forall₂_map_right_iff.mpr (List.forall₂_same.mpr fun _ listed => .plain listed)
  distinct := List.Pairwise.of_map ValueType.name (fun _ _ apart same => apart (congrArg _ same))
    (show (plain.map ValueType.name).Nodup by decide)
  named parts position := by
    constructor
    · exact nofun
    · intro found
      exact absurd (List.mem_of_getElem? found) (not_tuple_of_plain parts)

/-- That a position is of an object that a history knows: a plain type, or an earlier result. -/
def Known (trace : List (List Nat × Nat)) (position : Nat) : Prop :=
  position < plain.length ∨ ∃ request ∈ trace, request.2 = position

inductive History : List (List Nat × Nat) → TypeTable → Prop where
  | start : History [] start
  | request {trace : List (List Nat × Nat)} {table after : TypeTable} {fields : List Nat}
      {result : Nat} (earlier : History trace table)
      (known : ∀ field ∈ fields, Known trace field)
      (answered : table.tuple fields = some (result, after)) :
      History (trace ++ [(fields, result)]) after

variable {trace : List (List Nat × Nat)}

/-- What a history comes to: a table of types, among which are the results with their fields. -/
structure Account (trace : List (List Nat × Nat)) (table : TypeTable) (types : List ValueType) :
    Prop where
  sound : Sound table types
  results : ∀ request ∈ trace, ∃ parts,
    Stand types request.1 parts ∧ types[request.2]? = some (.tuple parts)

theorem Account.exists_stand (account : Account trace table types)
    (known : ∀ field ∈ fields, Known trace field) : ∃ parts, Stand types fields parts := by
  refine TypeTable.exists_stand fun field listed => ?_
  rcases known field listed with plain | ⟨request, answered, rfl⟩
  · exact Nat.lt_of_lt_of_le plain account.sound.initial.length_le
  · obtain ⟨parts, -, found⟩ := account.results request answered
    exact (List.getElem?_eq_some_iff.mp found).1

theorem Account.request (account : Account trace table types)
    (known : ∀ field ∈ fields, Known trace field)
    (answered : table.tuple fields = some (result, after)) :
    ∃ more, Account (trace ++ [(fields, result)]) after (types ++ more) := by
  obtain ⟨parts, stand⟩ := account.exists_stand known
  obtain ⟨_, _, more, answered', sound, found, -⟩ := account.sound.tuple stand
  cases Option.some.inj (answered.symm.trans answered')
  refine ⟨more, sound, fun request listed => ?_⟩
  rcases List.mem_append.mp listed with earlier | last
  · obtain ⟨parts, stand, found⟩ := account.results request earlier
    exact ⟨parts, stand.append, getElem?_append_of_some found⟩
  · obtain rfl := List.mem_singleton.mp last
    exact ⟨parts, stand.append, found⟩

theorem History.exists_account (history : History trace table) :
    ∃ types, Account trace table types := by
  induction history with
  | start => exact ⟨plain, sound_start, fun _ listed => absurd listed List.not_mem_nil⟩
  | request _ known answered ih =>
      obtain ⟨types, account⟩ := ih
      obtain ⟨more, account⟩ := account.request known answered
      exact ⟨_, account⟩

theorem Account.result_eq_iff (account : Account trace table types)
    {first second : List Nat × Nat} (listed : first ∈ trace) (listed' : second ∈ trace) :
    first.2 = second.2 ↔ first.1 = second.1 := by
  obtain ⟨parts, stand, found⟩ := account.results first listed
  obtain ⟨parts', stand', found'⟩ := account.results second listed'
  have inside := (List.getElem?_eq_some_iff.mp found).1
  rw [stand.eq_iff account.sound.distinct stand',
    ← List.getElem?_inj inside account.sound.distinct, found, found', Option.some.injEq,
    ValueType.tuple.injEq]

/-- Tuple types are interned faithfully. After any history, whatever is known can be asked for;
every result has exactly the fields that were asked for, and two requests have one result if and
only if they ask for the same fields. The objects stand for different types, whose names they bear,
and no two types share a name. -/
theorem interns_faithfully (history : History trace table) :
    (∀ fields, (∀ field ∈ fields, Known trace field) →
      ∃ result after, table.tuple fields = some (result, after)) ∧
    (∀ request ∈ trace, ∃ object,
      table.objects[request.2]? = some object ∧ object.fields = some request.1) ∧
    (∀ first ∈ trace, ∀ second ∈ trace, first.2 = second.2 ↔ first.1 = second.1) ∧
    (∃ types : List ValueType, types.Nodup ∧ List.Forall₂ (Made types) types table.objects) ∧
    (table.objects.map TypeObject.name).Nodup ∧
    ∀ left right : ValueType, left.name = right.name ↔ left = right := by
  obtain ⟨types, account⟩ := history.exists_account
  have sound := account.sound
  refine ⟨fun fields known => ?_, fun request listed => ?_,
    fun first listed second listed' => account.result_eq_iff listed listed',
    ⟨types, sound.distinct, sound.made⟩, sound.nodup_names,
    fun _ _ => ⟨ValueType.name_injective, congrArg _⟩⟩
  · obtain ⟨parts, stand⟩ := account.exists_stand known
    obtain ⟨result, after, _, answered, -⟩ := sound.tuple stand
    exact ⟨result, after, answered⟩
  · obtain ⟨parts, stand, found⟩ := account.results request listed
    exact sound.fields_eq found stand

theorem interns_faithfully_swapped : ∃ table,
    History [([], 9), ([3, 9], 10), ([9, 3], 11), ([3, 9], 10)] table ∧
      (∃ object, table.objects[11]? = some object ∧ object.fields = some [9, 3]) ∧
      (table.objects.map TypeObject.name).Nodup := by
  have history : ∃ table, History [([], 9), ([3, 9], 10), ([9, 3], 11), ([3, 9], 10)] table := by
    refine ⟨_, .request (.request (.request (.request .start ?_ rfl) ?_ rfl) ?_ rfl) ?_ rfl⟩
    all_goals simp [Known, plain, ValueType.scalars]
  obtain ⟨table, history⟩ := history
  obtain ⟨-, fields, -, -, names, -⟩ := interns_faithfully history
  exact ⟨table, history, fields ([9, 3], 11) (by simp), names⟩

end ExprWire.TypeTable
