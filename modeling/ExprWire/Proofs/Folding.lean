import ExprWire.Proofs.Inference
/-!
Constant folding. Of an expression built with inference on the value is known exactly if it is made
of literals by the tuple constructor alone, and then it is what the expression evaluates to.
-/

namespace ExprWire

namespace Attributes

def Agree (known : Attributes) : Prop := ∀ v, known.value = some v → known.type = some v.type

theorem agree_ofValue (v : Value) : (ofValue v).Agree := by
  intro u same
  rw [← Option.some.inj same]
  rfl

theorem agree_of_value_eq_none {known : Attributes} (open' : known.value = none) : known.Agree := by
  intro v same
  rw [open'] at same
  cases same

theorem mapM_type {fields : List Attributes} (agree : ∀ field ∈ fields, field.Agree)
    {values : List Value} (folded : fields.mapM value = some values) :
    fields.mapM type = some (values.map Value.type) := by
  induction fields generalizing values with
  | nil =>
      rw [List.mapM_nil] at folded
      rw [List.mapM_nil, ← Option.some.inj folded]
      rfl
  | cons field fields ih =>
      rw [List.mapM_cons] at folded
      simp only [Option.bind_eq_bind, Option.bind_eq_some_iff, Option.pure_def,
        Option.some.injEq] at folded
      obtain ⟨v, first, vs, others, rfl⟩ := folded
      have later := ih (fun field listed => agree field (List.mem_cons_of_mem _ listed)) others
      simp [List.mapM_cons, agree field List.mem_cons_self v first, later]

theorem ofTuple_value {fields : List Attributes} (agree : ∀ field ∈ fields, field.Agree) :
    (ofTuple fields).value = (fields.mapM value).map .tuple ∧ (ofTuple fields).Agree := by
  cases folded : fields.mapM value with
  | none =>
      have open' : (ofTuple fields).value = none := by
        rw [ofTuple]
        cases fields.mapM type <;> simp [folded, unknown]
      exact ⟨open', agree_of_value_eq_none open'⟩
  | some values =>
      have known : ofTuple fields =
          ⟨some (.tuple (values.map Value.type)), some (.tuple values)⟩ := by
        rw [ofTuple, mapM_type agree folded, folded]
      rw [known]
      refine ⟨rfl, ?_⟩
      intro v same
      rw [← Option.some.inj same, Value.type]

end Attributes

def Operator.isMakeTuple (operator : Operator) : Bool :=
  match operator.resolved with
  | .makeTuple => true
  | _ => false

theorem Operator.isMakeTuple_iff {operator : Operator} :
    operator.isMakeTuple = true ↔ operator.resolved = .makeTuple := by
  rw [isMakeTuple]
  cases operator.resolved <;> simp

/-- Whether an operator infers no value if it is an extension's, by reference or itself. -/
def Operator.Reserved [Extension] : Operator → Prop
  | .registered _ target => target.Reserved
  | .custom family name signature doc own mark => ∀ inputs,
      (infer inputs (.custom family name signature doc own mark)).value = none
  | _ => True

theorem Operator.infer_value [Extension] {operator : Operator} (reserved : operator.Reserved)
    {inputs : List Attributes} (agree : ∀ input ∈ inputs, input.Agree) :
    (operator.infer inputs).value =
        (if operator.isMakeTuple then (inputs.mapM Attributes.value).map .tuple else none) ∧
      (operator.infer inputs).Agree := by
  induction operator with
  | makeTuple => exact Attributes.ofTuple_value agree
  | registered name target ih => exact ih reserved
  | backend name signature doc output =>
      have open' : ((backend name signature doc output).infer inputs).value = none := by
        rw [infer]
        split <;> rfl
      exact ⟨open', Attributes.agree_of_value_eq_none open'⟩
  | custom => exact ⟨reserved inputs, Attributes.agree_of_value_eq_none (reserved inputs)⟩

namespace Expr

mutual

/-- The value of an expression made of literals by the tuple constructor. -/
def evaluate : Expr → Option Value
  | .literal value => some value
  | .apply op deps _ => if op.isMakeTuple then (evaluateAll deps).map .tuple else none
  | _ => none

def evaluateAll : List Expr → Option (List Value)
  | [] => some []
  | expr :: exprs => do
      let value ← evaluate expr
      let values ← evaluateAll exprs
      return value :: values

end

theorem evaluateAll_eq (es : List Expr) : evaluateAll es = es.mapM evaluate := by
  induction es with
  | nil => rfl
  | cons e es ih => rw [evaluateAll, ih, List.mapM_cons]

def Foldable : Expr → Prop
  | .literal _ => True
  | .apply op _ _ => op.resolved = .makeTuple
  | _ => False

def Reserved [Extension] : Expr → Prop
  | .apply op _ _ => op.Reserved
  | _ => True

theorem isSome_mapM {α β : Type} {f : α → Option β} {xs : List α} :
    (xs.mapM f).isSome = true ↔ ∀ x ∈ xs, (f x).isSome = true := by
  induction xs with
  | nil => simp
  | cons x xs ih =>
      rw [List.mapM_cons, List.forall_mem_cons, ← ih]
      cases f x <;> cases xs.mapM f <;> simp

theorem isSome_evaluate {e : Expr} :
    e.evaluate.isSome = true ↔ ∀ part ∈ e.parts, part.Foldable := by
  induction e using byDeps with
  | step e ih =>
      rw [forall_parts_iff]
      cases e with
      | literal value => simp [evaluate, Foldable, deps]
      | leaf key => simp [evaluate, Foldable]
      | placeholder key => simp [evaluate, Foldable]
      | apply op deps attributes =>
          have below : (deps.mapM evaluate).isSome = true ↔
              ∀ dep ∈ deps, ∀ part ∈ dep.parts, part.Foldable := by
            rw [isSome_mapM]
            exact forall₂_congr ih
          rw [evaluate, evaluateAll_eq, Foldable, ← Operator.isMakeTuple_iff, Expr.deps, ← below]
          cases op.isMakeTuple <;> simp

theorem inference_value [Extension] {e : Expr} (reserved : ∀ part ∈ e.parts, part.Reserved) :
    e.inference.value = e.evaluate ∧ e.inference.Agree := by
  induction e using byDeps with
  | step e ih =>
      obtain ⟨here, below⟩ := forall_parts_iff.mp reserved
      cases e with
      | literal value => exact ⟨by rw [inference, evaluate]; rfl, Attributes.agree_ofValue value⟩
      | leaf key => exact ⟨rfl, Attributes.agree_of_value_eq_none rfl⟩
      | placeholder key => exact ⟨rfl, Attributes.agree_of_value_eq_none rfl⟩
      | apply op deps attributes =>
          have agree : ∀ input ∈ deps.map inference, input.Agree := by
            intro input listed
            obtain ⟨dep, direct, rfl⟩ := List.mem_map.mp listed
            exact (ih dep direct (below dep direct)).2
          have direct : deps.map (fun dep => dep.inference.value) = deps.map evaluate :=
            List.map_congr_left fun dep direct => (ih dep direct (below dep direct)).1
          have values : (deps.map inference).mapM Attributes.value = deps.mapM evaluate := calc
            (deps.map inference).mapM Attributes.value
                = (deps.map fun dep => dep.inference.value).mapM id := by
                  rw [List.mapM_map, List.mapM_map]
                  rfl
            _ = (deps.map evaluate).mapM id := by rw [direct]
            _ = deps.mapM evaluate := by
                  rw [List.mapM_map]
                  rfl
          rw [inference, evaluate, inferenceAll_eq, evaluateAll_eq, ← values]
          exact Operator.infer_value here agree

/-- The value of a built expression is known exactly if all parts are literals or applications of
the tuple constructor, unless an extension's operator infers values too. It is what the expression
evaluates to, and its type is the known type. -/
theorem Built.folds_exactly [Extension] {e : Expr} (built : e.Built)
    (reserved : ∀ part ∈ e.parts, part.Reserved) :
    (e.attributes.value.isSome = true ↔ ∀ part ∈ e.parts, part.Foldable) ∧
    e.attributes.value = e.evaluate ∧
    ∀ v, e.attributes.value = some v → e.attributes.type = some v.type := by
  have known : e.attributes = e.inference := built.inferred.self
  obtain ⟨value, agree⟩ := inference_value reserved
  rw [known, value]
  exact ⟨isSome_evaluate, rfl, fun v same => agree v (value.trans same)⟩

theorem Built.folds_exactly_nested : ∃ e : Expr, e.Built ∧ (∀ part ∈ e.parts, part.Foldable) ∧
    e.attributes.value = some (.tuple [.unit, .tuple []]) ∧
    e.attributes.type = some (.tuple [.unit, .tuple []]) := by
  let reference := Operator.registered "pair" (.registered "core.make_tuple" .makeTuple)
  obtain ⟨empty, made⟩ : ∃ empty, Expr.call .makeTuple [] = .ok empty :=
    ⟨_, call_eq_ok_iff.mpr ⟨by decide, rfl⟩⟩
  obtain ⟨e, called⟩ : ∃ e, Expr.call reference [.literal .unit, empty] = .ok e :=
    ⟨_, call_eq_ok_iff.mpr ⟨rfl, rfl⟩⟩
  have inner : empty.Built := .call (fun _ listed => absurd listed List.not_mem_nil) made
  have built : e.Built := by
    apply Built.call _ called
    intro dep listed
    simp only [List.mem_cons, List.not_mem_nil, or_false] at listed
    cases listed with
    | inl first => exact first ▸ .literal .unit
    | inr second => exact second ▸ inner
  have reserved : ∀ part ∈ e.parts, part.Reserved := by
    rw [(call_eq_ok_iff.mp called).2, (call_eq_ok_iff.mp made).2]
    simp only [parts_eq, deps, List.flatMap_cons, List.flatMap_nil, List.append_nil,
      List.cons_append, List.nil_append, List.forall_mem_cons]
    exact ⟨trivial, trivial, trivial, fun _ none => absurd none List.not_mem_nil⟩
  obtain ⟨foldable, value, type⟩ := built.folds_exactly reserved
  have evaluated : e.evaluate = some (.tuple [.unit, .tuple []]) := by
    rw [(call_eq_ok_iff.mp called).2, (call_eq_ok_iff.mp made).2]
    rfl
  have known := value.trans evaluated
  refine ⟨e, built, foldable.mp (by rw [known, Option.isSome_some]), known, ?_⟩
  rw [type _ known]
  simp [Value.type]

end Expr

end ExprWire
