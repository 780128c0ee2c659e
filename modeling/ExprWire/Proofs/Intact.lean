import ExprWire.Options
import ExprWire.Proofs.Payload
import ExprWire.Proofs.Reach
/-!
What a registry of operators keeps exactly. Among the values that its codecs restore a fingerprint
tells a value apart in full, and among expressions that carry such values it leaves out nothing but
the attributes.
-/

namespace ExprWire

theorem Operator.eq_of_plain_eq {operators : OperatorRegistry} {left right : Operator}
    (supported : OperatorCodec.Supported left) (supported' : OperatorCodec.Supported right)
    (kept : OperatorCodec.Kept operators left) (kept' : OperatorCodec.Kept operators right)
    (same : left.plain = right.plain) : left = right := by
  have families : "BackendOperator" ≠ "MakeTupleOperator" := by decide
  cases left with
  | custom => exact supported.elim
  | makeTuple =>
      cases right with
      | makeTuple => rfl
      | custom => exact supported'.elim
      | backend => exact absurd (Operator.custom.inj same).1.symm families
      | registered => cases same
  | backend name signature doc output =>
      cases right with
      | backend => exact Operator.plain_backend_iff.mp same
      | custom => exact supported'.elim
      | makeTuple => exact absurd (Operator.custom.inj same).1 families
      | registered => cases same
  | registered name target =>
      cases right with
      | registered other target' =>
          have names : name = other := (Operator.registered.inj same).1
          subst names
          have targets : some target = some target' := kept.1.symm.trans kept'.1
          rw [Option.some.inj targets]
      | _ => cases same

namespace Value

/-- Whether the codecs with a registry of operators store and restore a value, its fields apart. -/
structure Intact (operators : OperatorRegistry) (v : Value) : Prop where
  supported : v.Supported
  fits : v.Fits
  kept : v.Kept operators

theorem eq_of_plain_eq {operators : OperatorRegistry} {u v : Value}
    (intact : ∀ part ∈ u.parts, part.Intact operators)
    (intact' : ∀ part ∈ v.parts, part.Intact operators)
    (same : u.plain = v.plain) : u = v := by
  induction u using byFields generalizing v with
  | step u ih =>
      cases u with
      | tuple fields =>
          cases v with
          | tuple others =>
              simp only [plain, plainAll_eq, tuple.injEq] at same
              apply congrArg tuple
              apply eq_of_map_eq same
              intro field nested other nested' alike
              exact ih field nested
                (fun part inside => intact part (mem_parts_of_field nested inside))
                (fun part inside => intact' part (mem_parts_of_field nested' inside)) alike
          | _ => cases same
      | operator op =>
          cases v with
          | operator other =>
              have here := intact _ (self_mem_parts _)
              have there := intact' _ (self_mem_parts _)
              exact congrArg operator (Operator.eq_of_plain_eq here.supported there.supported
                here.kept there.kept (operator.inj same))
          | _ => cases same
      | _ =>
          cases v with
          | tuple others => cases same
          | operator other => cases same
          | _ => exact same

end Value

namespace Expr

mutual

/-- An expression without the attributes of its applications. -/
def bare : Expr → Expr
  | .apply op deps _ => .apply op (bareAll deps) .unknown
  | e => e

def bareAll : List Expr → List Expr
  | [] => []
  | e :: es => bare e :: bareAll es

end

theorem bareAll_eq (es : List Expr) : bareAll es = es.map bare := by
  induction es with
  | nil => rfl
  | cons e es ih => rw [bareAll, ih, List.map_cons]

theorem plain_bare (e : Expr) : e.bare.plain = e.plain := by
  induction e using byDeps with
  | step e ih =>
      cases e with
      | apply op deps attributes =>
          simp only [bare, plain, bareAll_eq, plainAll_eq, List.map_map, apply.injEq, true_and,
            and_true]
          exact List.map_congr_left ih
      | _ => rfl

theorem fingerprint_bare (e : Expr) : e.bare.fingerprint = e.fingerprint :=
  fingerprint_eq_of_plain e.plain_bare

theorem bare_eq_of_plain_eq {operators : OperatorRegistry} {d e : Expr}
    (intact : ∀ part ∈ d.parts, ∀ v ∈ part.content?, ∀ u ∈ v.parts, u.Intact operators)
    (intact' : ∀ part ∈ e.parts, ∀ v ∈ part.content?, ∀ u ∈ v.parts, u.Intact operators)
    (same : d.plain = e.plain) : d.bare = e.bare := by
  induction d using byDeps generalizing e with
  | step d ih =>
      cases d with
      | literal u =>
          cases e with
          | literal v =>
              exact congrArg literal (Value.eq_of_plain_eq (intact _ (self_mem_parts _) u rfl)
                (intact' _ (self_mem_parts _) v rfl) (literal.inj same))
          | _ => cases same
      | apply op deps attributes =>
          cases e with
          | apply other others attributes' =>
              simp only [plain, plainAll_eq, apply.injEq, and_true] at same
              have here := intact _ (self_mem_parts _) _ rfl _ (Value.self_mem_parts _)
              have there := intact' _ (self_mem_parts _) _ rfl _ (Value.self_mem_parts _)
              have equal : op = other := Operator.eq_of_plain_eq here.supported there.supported
                here.kept there.kept same.1
              have direct : deps.map bare = others.map bare := by
                apply map_eq_of_map_eq same.2
                intro dep listed dep' listed' alike
                exact ih dep listed
                  (fun part inside => intact part (mem_parts_of_dep listed inside))
                  (fun part inside => intact' part (mem_parts_of_dep listed' inside)) alike
              simp only [bare, bareAll_eq, equal, direct]
          | _ => cases same
      | leaf key =>
          cases e with
          | leaf other => exact same
          | _ => cases same
      | placeholder key =>
          cases e with
          | placeholder other => exact same
          | _ => cases same

def Counted : Expr → Prop
  | .apply op deps _ => op.signature.arity.accepts deps.length = true
  | _ => True

end Expr

namespace Roots

/-- Whether the codecs with a registry of operators store and restore what is in the roots, and all
applications have as many dependencies as their operators take. -/
structure Intact (operators : OperatorRegistry) (roots : Roots) : Prop where
  contents : ∀ v ∈ roots.contents, v.Intact operators
  counted : ∀ e ∈ roots.nodes, e.Counted

variable {operators : OperatorRegistry} {roots : Roots}

/-- Whether what is in the roots is stored and restored under some options, so that counts matter
only where they are checked. -/
structure Restorable (operators : OperatorRegistry) (options : Options) (roots : Roots) :
    Prop where
  contents : ∀ v ∈ roots.contents, v.Intact operators
  counted : options.safe = true → ∀ e ∈ roots.nodes, e.Counted

theorem Intact.restorable (intact : roots.Intact operators) (options : Options) :
    roots.Restorable operators options :=
  ⟨intact.contents, fun _ => intact.counted⟩

theorem intact_parts (intact : ∀ v ∈ roots.contents, v.Intact operators) {v : Value}
    (present : v ∈ roots.contents) : ∀ part ∈ v.parts, part.Intact operators := by
  intro part inside
  exact intact part (Value.mem_of_mem_parts
    (fun _ present _ nested => field_mem_contents present nested) present inside)

theorem intact_carried (intact : ∀ v ∈ roots.contents, v.Intact operators) {e : Expr}
    (present : e ∈ roots.nodes) :
    ∀ part ∈ e.parts, ∀ v ∈ part.content?, ∀ u ∈ v.parts, u.Intact operators := by
  intro part inside v carried
  exact intact_parts intact (content_mem_contents (node_of_mem_parts present inside) carried)

theorem Told.value_eq (told : roots.Told) (intact : ∀ v ∈ roots.contents, v.Intact operators)
    {u v : Value} (left : u ∈ roots.contents) (right : v ∈ roots.contents)
    (same : u.fingerprint = v.fingerprint) : u = v :=
  Value.eq_of_plain_eq (intact_parts intact left) (intact_parts intact right)
    (told.values u left v right same)

theorem Told.bare_eq (told : roots.Told) (intact : ∀ v ∈ roots.contents, v.Intact operators)
    {d e : Expr} (left : d ∈ roots.nodes) (right : e ∈ roots.nodes)
    (same : d.fingerprint = e.fingerprint) : d.bare = e.bare :=
  Expr.bare_eq_of_plain_eq (intact_carried intact left) (intact_carried intact right)
    (told.nodes d left e right same)

end Roots

end ExprWire
