import ExprWire.Proofs.Intact
import ExprWire.Proofs.Lockstep
/-!
Expressions built with inference on. What is known about such an expression is a function of its
structure: `inference` works it out from the bottom up and reads no attributes.
-/

namespace ExprWire.Expr

mutual

/-- What the structure of an expression says about it, whatever attributes it has. -/
def inference [Extension] : Expr → Attributes
  | .literal value => .ofValue value
  | .apply op deps _ => op.infer (inferenceAll deps)
  | _ => .unknown

def inferenceAll [Extension] : List Expr → List Attributes
  | [] => []
  | expr :: exprs => inference expr :: inferenceAll exprs

end

variable [Extension]

theorem inferenceAll_eq (es : List Expr) : inferenceAll es = es.map inference := by
  induction es with
  | nil => rfl
  | cons e es ih => rw [inferenceAll, ih, List.map_cons]

/-- That an expression and all under it have the attributes that their structure gives them. -/
def Inferred (e : Expr) : Prop := ∀ part ∈ e.parts, part.attributes = part.inference

theorem Inferred.self {e : Expr} (inferred : e.Inferred) : e.attributes = e.inference :=
  inferred e e.self_mem_parts

theorem Inferred.part {e inner : Expr} (inferred : e.Inferred) (inside : inner ∈ e.parts) :
    inner.Inferred :=
  fun part nested => inferred part (parts_trans inside nested)

theorem inference_bare (e : Expr) : e.bare.inference = e.inference := by
  induction e using byDeps with
  | step e ih =>
      cases e with
      | apply op deps attributes =>
          have direct : (deps.map bare).map inference = deps.map inference := by
            rw [List.map_map]
            exact List.map_congr_left ih
          rw [bare, inference, inference, inferenceAll_eq, inferenceAll_eq, bareAll_eq, direct]
      | _ => rfl

theorem Inferred.eq_of_bare_eq {d e : Expr} (inferred : d.Inferred) (inferred' : e.Inferred)
    (same : d.bare = e.bare) : d = e := by
  induction d using byDeps generalizing e with
  | step d ih =>
      have known : d.attributes = e.attributes := calc
        d.attributes = d.bare.inference := by rw [inferred.self, inference_bare]
        _ = e.bare.inference := congrArg inference same
        _ = e.attributes := by rw [inferred'.self, inference_bare]
      cases d with
      | apply op deps attributes =>
          cases e with
          | apply other others attributes' =>
              simp only [bare, bareAll_eq, apply.injEq, and_true] at same
              have direct : deps = others := by
                apply eq_of_map_eq same.2
                intro dep listed dep' listed' alike
                exact ih dep listed (inferred.part (mem_parts_of_dep listed dep.self_mem_parts))
                  (inferred'.part (mem_parts_of_dep listed' dep'.self_mem_parts)) alike
              rw [same.1, direct, show attributes = attributes' from known]
          | _ => cases same
      | _ =>
          cases e with
          | apply other others attributes' => cases same
          | _ => exact same

theorem callNamed_eq_ok_iff {operators : Option OperatorRegistry} {name : String}
    {deps : List Expr} {e : Expr} : callNamed operators name deps = .ok e ↔
      ∃ registry target, operators = some registry ∧ registry.find? name = some target ∧
        call (.registered name target) deps = .ok e := by
  cases operators with
  | none => simp [callNamed, raise, throw, throwThe, MonadExceptOf.throw]
  | some registry =>
      cases bound : registry.find? name with
      | none =>
          simp [callNamed, OperatorRegistry.lookup, OperatorRegistry.target, bound, raise, throw,
            throwThe, MonadExceptOf.throw, Except.map, bind, Except.bind]
      | some target =>
          simp [callNamed, OperatorRegistry.lookup, OperatorRegistry.target, bound, Except.map,
            bind, Except.bind]

/-- That an expression is made of literals, leaves, placeholders and applications, each of whose
counts of dependencies was checked and whose attributes were inferred. -/
inductive Built : Expr → Prop where
  | literal (value : Value) : Built (.literal value)
  | leaf (key : String) : Built (.leaf key)
  | placeholder (key : String) : Built (.placeholder key)
  | call {op : Operator} {deps : List Expr} {e : Expr} (parts : ∀ dep ∈ deps, Built dep)
      (made : call op deps = .ok e) : Built e
  | callNamed {operators : Option OperatorRegistry} {name : String} {deps : List Expr} {e : Expr}
      (parts : ∀ dep ∈ deps, Built dep) (made : callNamed operators name deps = .ok e) : Built e

/-- What building checks and infers at an expression, its dependencies apart. -/
structure Sound (e : Expr) : Prop where
  counted : e.Counted
  inferred : e.attributes = e.inference

theorem map_attributes {deps : List Expr} (sound : ∀ dep ∈ deps, ∀ part ∈ dep.parts, part.Sound) :
    deps.map attributes = inferenceAll deps := by
  rw [inferenceAll_eq]
  exact List.map_congr_left fun dep direct => (sound dep direct dep dep.self_mem_parts).inferred

theorem sound_call {op : Operator} {deps : List Expr} {e : Expr}
    (sound : ∀ dep ∈ deps, ∀ part ∈ dep.parts, part.Sound) (made : call op deps = .ok e) :
    ∀ part ∈ e.parts, part.Sound := by
  obtain ⟨accepted, same⟩ := call_eq_ok_iff.mp made
  rw [same, if_pos rfl, map_attributes sound]
  exact forall_parts_iff.mpr ⟨⟨accepted, by rw [attributes, inference]⟩, sound⟩

theorem Built.sound {e : Expr} (built : e.Built) : ∀ part ∈ e.parts, part.Sound := by
  have alone {e : Expr} (sound : e.Sound) (none : e.deps = []) : ∀ part ∈ e.parts, part.Sound :=
    forall_parts_iff.mpr ⟨sound, fun dep direct => absurd (none ▸ direct) List.not_mem_nil⟩
  induction built with
  | literal value => exact alone ⟨trivial, by rw [attributes, inference]⟩ rfl
  | leaf key => exact alone ⟨trivial, rfl⟩ rfl
  | placeholder key => exact alone ⟨trivial, rfl⟩ rfl
  | call _ made ih => exact sound_call ih made
  | callNamed _ made ih =>
      obtain ⟨registry, target, -, -, made⟩ := callNamed_eq_ok_iff.mp made
      exact sound_call ih made

theorem Built.inferred {e : Expr} (built : e.Built) : e.Inferred :=
  fun part inside => (built.sound part inside).inferred

theorem built_iff {e : Expr} : e.Built ↔ ∀ part ∈ e.parts, part.Sound := by
  constructor
  · exact Built.sound
  · intro sound
    induction e using byDeps with
    | step e ih =>
        obtain ⟨⟨counted, known⟩, below⟩ := forall_parts_iff.mp sound
        cases e with
        | literal value => exact .literal value
        | leaf key => exact .leaf key
        | placeholder key => exact .placeholder key
        | apply op deps attributes =>
            have direct : deps.map Expr.attributes = inferenceAll deps := map_attributes below
            rw [inference, ← direct] at known
            have made : call op deps = .ok (.apply op deps attributes) :=
              call_eq_ok_iff.mpr ⟨counted, by rw [if_pos rfl, ← known, Expr.attributes]⟩
            exact .call (fun dep direct => ih dep direct (below dep direct)) made

end ExprWire.Expr
