import ExprWire.Proofs.Reserialization
/-!
What can be serialized: roots whose operators can be stored, an operator apart that comes up behind
one with its fingerprint. Whatever else cannot be stored is blamed on the first root to reach it.
-/

namespace ExprWire

open Encoding (Halts Passes Stops)
open Fingerprint (Faithful)

/-- Whether all operators among some values can be stored. -/
def Supports (given : List Value) : Prop :=
  ∀ op, .operator op ∈ given → OperatorCodec.Supported op

/-- Whether every operator among some values can be stored or stands behind a value with its
fingerprint. -/
def Admitted (listed : List Value) : Prop :=
  ∀ before op behind, listed = before ++ .operator op :: behind →
    OperatorCodec.Supported op ∨ (Value.operator op).fingerprint ∈ Value.prints before

theorem Supports.admitted {given listed : List Value} (supports : Supports given)
    (included : ∀ v ∈ listed, v ∈ given) : Admitted listed := by
  intro before op behind split
  refine .inl (supports op (included _ ?_))
  rw [split]
  exact List.mem_append_right _ List.mem_cons_self

theorem Admitted.left {listed more : List Value} (admitted : Admitted (listed ++ more)) :
    Admitted listed := by
  intro before op behind split
  refine admitted before op (behind ++ more) ?_
  rw [split, List.append_assoc, List.cons_append]

theorem admitted_nil : Admitted [] := by
  intro before op behind split
  exact absurd split.symm (List.append_ne_nil_of_right_ne_nil _ (List.cons_ne_nil _ _))

theorem admitted_concat_iff {listed : List Value} {v : Value} :
    Admitted (listed ++ [v]) ↔ Admitted listed ∧ ∀ op, v = .operator op →
      OperatorCodec.Supported op ∨ (Value.operator op).fingerprint ∈ Value.prints listed := by
  constructor
  · intro admitted
    refine ⟨admitted.left, fun op last => ?_⟩
    exact admitted listed op [] (by rw [last])
  · intro ⟨admitted, last⟩ before op behind split
    cases behind.eq_nil_or_concat' with
    | inl none =>
        rw [none] at split
        obtain ⟨same, here⟩ := List.append_inj' split rfl
        exact same ▸ last op (List.cons.inj here).1
    | inr some =>
        obtain ⟨rest, final, same⟩ := some
        rw [same, ← List.cons_append, ← List.append_assoc] at split
        exact admitted before op rest (List.append_inj' split rfl).1

theorem passes_iff_admitted {listed : List Value} (fits : ∀ v ∈ listed, v.Fits) :
    Passes [] listed ↔ Admitted listed := by
  constructor
  · intro passes before op behind split
    -- of values whose lengths fit, only operators have no payload
    by_contra refused
    obtain ⟨unsupported, fresh⟩ := not_or.mp refused
    obtain ⟨fault, refused, -⟩ := OperatorCodec.payload_unsupported unsupported
    exact passes (.fault fault) ⟨before, _, behind, split, refused, fresh⟩
  · rintro admitted problem ⟨before, u, behind, split, refused, fresh⟩
    have listed' : u ∈ listed := by
      rw [split]
      exact List.mem_append_right _ List.mem_cons_self
    obtain ⟨op, rfl, unsupported, -⟩ := Value.unsupported_of_refused (fits u listed') refused
    exact (admitted before op behind split).elim unsupported fresh

theorem Admitted.exists_supported {listed : List Value} (admitted : Admitted listed)
    (plain : ∀ u ∈ listed, ∀ op, .operator op ∈ listed →
      u.fingerprint = (Value.operator op).fingerprint → u.plain = (Value.operator op).plain)
    {op : Operator} (present : .operator op ∈ listed) :
    ∃ other, .operator other ∈ listed ∧ OperatorCodec.Supported other ∧ other.plain = op.plain := by
  -- the first value with the fingerprint has nothing before it to hide behind
  have found : (listed.find? fun u => u.fingerprint = (Value.operator op).fingerprint).isSome :=
    List.find?_isSome.mpr ⟨_, present, decide_eq_true rfl⟩
  obtain ⟨u, first⟩ := Option.isSome_iff_exists.mp found
  obtain ⟨same, before, behind, split, apart⟩ := List.find?_eq_some_iff_append.mp first
  have same := of_decide_eq_true same
  have here : u ∈ listed := List.mem_of_find?_eq_some first
  have plains := plain u here op present same
  cases u with
  | operator other =>
      refine ⟨other, here, ?_, Value.operator.inj plains⟩
      refine (admitted before other behind split).resolve_right fun earlier => ?_
      obtain ⟨w, listed, print⟩ := List.mem_map.mp earlier
      have unlike := apart w listed
      rw [print, same] at unlike
      simp at unlike
  | _ => cases plains

namespace Roots

variable {roots : Roots}

/-- The first of some things that bring up an operator which is not admitted is blamed for it, by
its place among them. -/
def Blamed {α : Type} (known : List Value) (order : α → List Value) (note : Nat → Note)
    (as : List α) (fault : Fault) : Prop :=
  ∃ before a behind, as = before ++ a :: behind ∧ Admitted (known ++ before.flatMap order) ∧
    ¬Admitted (known ++ before.flatMap order ++ order a) ∧
    fault.notes.getLast? = some (note before.length)

theorem Blamed.not_admitted {α : Type} {known : List Value} {order : α → List Value}
    {note : Nat → Note} {as : List α} {fault : Fault} (blamed : Blamed known order note as fault) :
    ¬Admitted (known ++ as.flatMap order) := by
  obtain ⟨before, a, behind, rfl, -, refused, -⟩ := blamed
  intro admitted
  rw [List.flatMap_append, List.flatMap_cons, ← List.append_assoc, ← List.append_assoc] at admitted
  exact refused admitted.left

theorem blamed_of_stops (faithful : Faithful roots.hashed) {α : Type} {as : List α}
    {known : List Value} {order : α → List Value} {note : Nat → Note}
    (inside : ∀ u ∈ known ++ as.flatMap order, u ∈ roots.contents)
    (passes : Passes [] known) {problem : Problem}
    (stops : Stops (Value.prints known) order note 0 as problem) :
    ∃ fault, problem = .fault fault ∧ fault.status = .unimplemented ∧
      Blamed known order note as fault := by
  obtain ⟨before, a, behind, rfl, passes', cause, rfl, halts⟩ := stops
  have fits : ∀ u ∈ known ++ before.flatMap order ++ order a, u.Fits := by
    intro u listed
    refine fits_of_faithful faithful (inside u ?_)
    rw [List.flatMap_append, List.flatMap_cons, ← List.append_assoc, ← List.append_assoc]
    exact List.mem_append_left _ listed
  obtain ⟨u, listed, refused⟩ := halts.exists_refused
  obtain ⟨-, -, -, fault, rfl, status⟩ :=
    Value.unsupported_of_refused (fits u (List.mem_append_right _ listed)) refused
  have earlier : Passes [] (known ++ before.flatMap order) := passes.append passes'
  rw [← Value.prints_append] at halts
  refine ⟨fault.addNote (note (0 + before.length)), rfl, status, before, a, behind, rfl, ?_, ?_, ?_⟩
  · exact (passes_iff_admitted fun u listed => fits u (List.mem_append_left _ listed)).mp earlier
  · intro admitted
    exact (passes_iff_admitted fits).mpr admitted _ (Encoding.halts_append.mpr (.inr halts))
  · rw [Fault.addNote, List.getLast?_concat, Nat.zero_add]

theorem blamed_of_stopped (faithful : Faithful roots.hashed) {problem : Problem}
    (stopped : Encoding.Stopped roots problem) :
    ∃ fault, problem = .fault fault ∧ fault.status = .unimplemented ∧
      (Blamed [] Value.order .encodingValue roots.values fault ∨
        Blamed (roots.values.flatMap Value.order) Expr.order .encodingExpr roots.exprs fault) := by
  have inside : ∀ u ∈ roots.order, u ∈ roots.contents := fun u => mem_order_iff.mp
  rcases stopped with stops | ⟨passes, stops⟩
  · obtain ⟨fault, same, status, blamed⟩ := blamed_of_stops faithful
      (fun u listed => inside u (List.mem_append_left _ listed)) (fun _ => Encoding.not_halts_nil)
      stops
    exact ⟨fault, same, status, .inl blamed⟩
  · obtain ⟨fault, same, status, blamed⟩ := blamed_of_stops faithful inside passes stops
    exact ⟨fault, same, status, .inr blamed⟩

theorem serialize_admits (operators : OperatorRegistry) (faithful : Faithful roots.hashed) :
    match serialize (.standard operators) roots.values roots.exprs with
    | .ok _ => Admitted roots.order
    | .error problem => ¬Admitted roots.order ∧
        ∃ fault, problem = .fault fault ∧ fault.status = .unimplemented ∧
          (Blamed [] Value.order .encodingValue roots.values fault ∨
            Blamed (roots.values.flatMap Value.order) Expr.order .encodingExpr roots.exprs
              fault) := by
  have held := Container.encode_stops operators (Roots.told faithful)
  rw [serialize]
  generalize Container.encode (CodecRegistry.standard operators).encoder roots.values roots.exprs =
    outcome at held ⊢
  cases outcome with
  | ok container =>
      have fits : ∀ u ∈ roots.order, u.Fits := fun u listed =>
        fits_of_faithful faithful (mem_order_iff.mp listed)
      exact (passes_iff_admitted fits).mp held.2
  | error problem =>
      obtain ⟨fault, same, status, blamed⟩ := blamed_of_stopped faithful held
      refine ⟨?_, fault, same, status, blamed⟩
      rcases blamed with inValues | inExprs
      · exact fun admitted => inValues.not_admitted admitted.left
      · exact inExprs.not_admitted

theorem serializes_of_admitted (operators : OperatorRegistry) (faithful : Faithful roots.hashed)
    (admitted : Admitted roots.order) :
    ∃ container, serialize (.standard operators) roots.values roots.exprs = .ok container := by
  have held := serialize_admits operators faithful
  generalize serialize (.standard operators) roots.values roots.exprs = outcome at held ⊢
  cases outcome with
  | ok container => exact ⟨container, rfl⟩
  | error problem => exact absurd admitted held.1

theorem exists_supported_alike (faithful : Faithful roots.hashed) (admitted : Admitted roots.order)
    {op : Operator} (present : .operator op ∈ roots.contents) :
    ∃ other, .operator other ∈ roots.contents ∧ OperatorCodec.Supported other ∧
      other.description = op.description := by
  have told := Roots.told faithful
  have plain : ∀ u ∈ roots.order, ∀ op, .operator op ∈ roots.order →
      u.fingerprint = (Value.operator op).fingerprint → u.plain = (Value.operator op).plain :=
    fun u listed op listed' print =>
      told.values u (mem_order_iff.mp listed) _ (mem_order_iff.mp listed') print
  obtain ⟨other, listed, supported, same⟩ :=
    admitted.exists_supported plain (mem_order_iff.mpr present)
  refine ⟨other, mem_order_iff.mp listed, supported, ?_⟩
  rw [← other.description_plain, same, op.description_plain]

/-- Serializing succeeds exactly if each operator that the roots reach can be stored or comes up
behind one with its fingerprint, which then describes itself in the same way. Otherwise it is
unimplemented, and blames the first value that brings up another operator, or if there is none, the
first such expression. -/
theorem serializes_iff_admitted (operators : OperatorRegistry) (faithful : Faithful roots.hashed) :
    ((∃ container, serialize (.standard operators) roots.values roots.exprs = .ok container) ↔
      Admitted roots.order) ∧
    (Admitted roots.order → ∀ op, .operator op ∈ roots.contents →
      ∃ other, .operator other ∈ roots.contents ∧ OperatorCodec.Supported other ∧
        other.description = op.description) ∧
    ∀ problem, serialize (.standard operators) roots.values roots.exprs = .error problem →
      ∃ fault, problem = .fault fault ∧ fault.status = .unimplemented ∧
        (Blamed [] Value.order .encodingValue roots.values fault ∨
          Blamed (roots.values.flatMap Value.order) Expr.order .encodingExpr roots.exprs
            fault) := by
  have held := serialize_admits operators faithful
  refine ⟨⟨?_, serializes_of_admitted operators faithful⟩, ?_, ?_⟩
  · intro succeeds
    obtain ⟨container, accepted⟩ := succeeds
    rw [accepted] at held
    exact held
  · intro admitted op present
    exact exists_supported_alike faithful admitted present
  · intro problem refused
    rw [refused] at held
    exact held.2

def extended : Roots :=
  ⟨[.unit, .operator (.custom "Extension" "f" Operator.tupleSignature "")], []⟩

theorem contents_extended : extended.contents =
    [.unit, .operator (.custom "Extension" "f" Operator.tupleSignature "")] := rfl

theorem faithful_extended : Faithful extended.hashed := by
  have hashed : extended.hashed =
      [⟨"TypedValue", [.text "UNIT"]⟩,
        ⟨"TypedValue", [.text "EXPR_OPERATOR", .ofFingerprint
          (Operator.custom "Extension" "f" Operator.tupleSignature "").fingerprint]⟩,
        (Operator.custom "Extension" "f" Operator.tupleSignature "").description] := by
    rw [Roots.hashed, contents_extended]
    simp [nodes, extended, Value.descriptions, Value.description, Value.type, ValueType.name,
      Value.covered, Value.operator?]
  rw [hashed]
  refine .of_pairwise ?_ ?_
  · unfold Operator.fingerprint Fingerprint.ofPreimage
    decide +kernel
  · unfold Operator.fingerprint Fingerprint.Description.fingerprint Fingerprint.ofPreimage
    decide +kernel

theorem serializes_iff_admitted_extended : ∃ fault,
    serialize (.standard .empty) extended.values extended.exprs = .error (.fault fault) ∧
      fault.status = .unimplemented ∧ fault.notes.getLast? = some (.encodingValue 1) := by
  have told := Roots.told faithful_extended
  have admitted : Admitted ([] ++ [.unit]) := admitted_concat_iff.mpr ⟨admitted_nil, nofun⟩
  have refused : ¬Admitted ([.unit] ++
      [.operator (.custom "Extension" "f" Operator.tupleSignature "")]) := by
    intro admitted
    cases (admitted_concat_iff.mp admitted).2 _ rfl with
    | inl supported => exact supported
    | inr earlier =>
        have same := told.values _ (by simp [contents_extended]) _ (by simp [contents_extended])
          (List.mem_singleton.mp earlier)
        cases same
  obtain ⟨decided, -, failures⟩ := serializes_iff_admitted .empty faithful_extended
  cases outcome : serialize (.standard .empty) extended.values extended.exprs with
  | ok container => exact absurd (decided.mp ⟨container, outcome⟩) refused
  | error problem =>
      obtain ⟨fault, rfl, status, blamed | blamed⟩ := failures problem outcome
      · obtain ⟨before, v, behind, given, -, here, noted⟩ := blamed
        refine ⟨fault, rfl, status, ?_⟩
        rcases before with - | ⟨first, - | ⟨second, before⟩⟩
        · rw [← (List.cons.inj given).1] at here
          exact absurd admitted here
        · exact noted
        · exact absurd (List.cons.inj (List.cons.inj given).2).2.symm
            (List.append_ne_nil_of_right_ne_nil _ (List.cons_ne_nil _ _))
      · obtain ⟨before, e, behind, given, -⟩ := blamed
        exact absurd given.symm (List.append_ne_nil_of_right_ne_nil _ (List.cons_ne_nil _ _))

end Roots

/-- An operator of an extension that says of itself all that the tuple constructor does. -/
def Operator.impostor : Operator :=
  .custom "MakeTupleOperator" "core.make_tuple" Operator.tupleSignature
    "Returns a tuple of the inputs."

theorem Operator.description_impostor : impostor.description = Operator.makeTuple.description := rfl

theorem Operator.fingerprint_impostor : impostor.fingerprint = Operator.makeTuple.fingerprint := rfl

namespace Roots

/-- Behind the tuple constructor the impostor is missed by nothing, though it cannot be stored. -/
def disguised : Roots := ⟨[.operator .makeTuple, .operator .impostor], []⟩

theorem contents_disguised :
    disguised.contents = [.operator .makeTuple, .operator .impostor] := rfl

theorem faithful_disguised : Faithful disguised.hashed := by
  refine faithful_sharing.subset ?_
  have same : (Value.operator .impostor).description = (Value.operator .makeTuple).description := by
    rw [Value.description, Value.description, Value.covered, Value.covered, Value.type, Value.type,
      Operator.fingerprint_impostor]
  have hashed : disguised.hashed = [
      (Value.operator .makeTuple).description, Operator.makeTuple.description,
      (Value.operator .makeTuple).description, Operator.makeTuple.description] := by
    rw [Roots.hashed, contents_disguised]
    simp [nodes, disguised, Value.descriptions, Value.operator?, same,
      Operator.description_impostor]
  rw [hashed]
  intro d listed
  simp only [List.mem_cons, List.not_mem_nil, or_false] at listed
  have held : Value.operator .makeTuple ∈ sharing.contents := by simp [contents_sharing]
  rcases listed with rfl | rfl | rfl | rfl
  · exact mem_hashed_of_value held List.mem_cons_self
  · exact mem_hashed_of_value held (List.mem_cons_of_mem _ List.mem_cons_self)
  · exact mem_hashed_of_value held List.mem_cons_self
  · exact mem_hashed_of_value held (List.mem_cons_of_mem _ List.mem_cons_self)

/-- So what can be serialized is not what reaches only operators that can be stored. -/
theorem disguised_serializes :
    (∃ container, serialize (.standard .empty) disguised.values disguised.exprs = .ok container) ∧
      .operator .impostor ∈ disguised.contents ∧ ¬OperatorCodec.Supported .impostor := by
  have first : Admitted ([] ++ [.operator .makeTuple]) := by
    refine admitted_concat_iff.mpr ⟨admitted_nil, fun op same => .inl ?_⟩
    rw [← Value.operator.inj same]
    trivial
  have second : Admitted ([.operator .makeTuple] ++ [.operator .impostor]) := by
    refine admitted_concat_iff.mpr ⟨first, fun op same => .inr (List.mem_singleton.mpr ?_)⟩
    rw [← same, Value.fingerprint, Value.fingerprint, Operator.fingerprint_impostor]
  refine ⟨serializes_of_admitted .empty faithful_disguised second, ?_, id⟩
  rw [contents_disguised]
  exact List.mem_cons_of_mem _ List.mem_cons_self

end Roots

end ExprWire
