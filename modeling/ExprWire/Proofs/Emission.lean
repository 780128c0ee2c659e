import ExprWire.Proofs.Session
/-!
The references of emitted steps. Whatever is asked of an encoder, each step refers to earlier steps
only, and to steps of the kind it needs; and no dependency is ever missing.
-/

namespace ExprWire

open Fingerprint (Faithful)
open Ledger (Spells Spelled Builds Reached)

namespace Step

def codecName? : Step → Option String
  | .codec name => some name
  | _ => none

def isValue : Step → Bool
  | .value _ _ _ _ => true
  | _ => false

def isExpr : Step → Bool
  | .literal _ | .leaf _ | .placeholder _ | .apply _ _ => true
  | _ => false

def IsOperator (step : Step) : Prop :=
  ∃ op payload slot, OperatorCodec.payload op = .ok payload ∧ step = .value payload slot [] []

def PointsTo (before : List Step) (kind : Step → Prop) (index : Number) : Prop :=
  ∃ position step, index = .ofNat position ∧ before[position]? = some step ∧ kind step

def Tags (before : List Step) (payload : Bytes) (index : Number) : Prop :=
  ∃ slot name, index = .ofNat slot ∧ (before.filterMap codecName?)[slot]? = some name ∧
    (Reader.tag name).parse payload = .ok true

/-- Whether all that a step refers to stands among the steps before it and is of the right kind. -/
def Sound (before : List Step) : Step → Prop
  | .codec _ | .leaf _ | .placeholder _ => True
  | .value payload slot values exprs =>
      (∃ index, slot = some index ∧ Tags before payload index) ∧
        (∀ index ∈ values, PointsTo before (·.isValue) index) ∧
        ∀ index ∈ exprs, PointsTo before (·.isExpr) index
  | .literal index | .outputValue index => PointsTo before (·.isValue) index
  | .apply operator deps =>
      PointsTo before IsOperator operator ∧ ∀ index ∈ deps, PointsTo before (·.isExpr) index
  | .outputExpr index => PointsTo before (·.isExpr) index
  | .malformed _ => False

end Step

namespace Ledger

open Step (PointsTo Sound)

variable {roots : Roots} {items : Ledger} {steps : List Step}

theorem Spelled.codecs_eq (spelled : Spelled items steps) :
    items.codecs = steps.filterMap Step.codecName? := by
  induction spelled with
  | nil => rfl
  | @snoc items steps item step _ spells ih =>
      rw [codecs_append, List.filterMap_append, ih]
      cases spells with
      | node _ builds => cases builds <;> rfl
      | _ => rfl

theorem HasValue.pointsTo (spelled : Spelled items steps) {v : Value} {position : Nat}
    (stored : items.HasValue v position) : PointsTo steps (·.isValue) (.ofNat position) := by
  rcases stored with ⟨u, found, -⟩
  rcases spelled.spells_at found with ⟨step, present, spells⟩
  cases spells with
  | value => exact ⟨position, _, rfl, present, rfl⟩

theorem HasNode.pointsTo (spelled : Spelled items steps) {e : Expr} {position : Nat}
    (stored : items.HasNode e position) : PointsTo steps (·.isExpr) (.ofNat position) := by
  rcases stored with ⟨d, found, -⟩
  rcases spelled.spells_at found with ⟨step, present, spells⟩
  cases spells with
  | node _ builds =>
      cases builds <;> exact ⟨position, _, rfl, present, rfl⟩

theorem HasValue.pointsTo_operator (told : roots.Told) (spelled : Spelled items steps)
    (reached : Reached roots items) {op : Operator} {position : Nat}
    (present : .operator op ∈ roots.contents) (stored : items.HasValue (.operator op) position) :
    PointsTo steps Step.IsOperator (.ofNat position) := by
  rcases stored.exists_spells told spelled reached present with
    ⟨u, step, plains, at_position, spells⟩
  cases u with
  | operator other =>
      cases spells with
      | value _ stored _ nested =>
          cases nested with
          | nil => exact ⟨position, _, rfl, at_position, other, _, _, stored, rfl⟩
  | _ => exact absurd plains nofun

theorem forall_pointsTo {α : Type} {stored : α → Nat → Prop} {kind : Step → Prop} {xs : List α}
    {positions : List Nat} (paired : List.Forall₂ stored xs positions)
    (points : ∀ x position, stored x position → PointsTo steps kind (.ofNat position)) :
    ∀ index ∈ positions.map Number.ofNat, PointsTo steps kind index := by
  induction paired with
  | nil => exact fun _ present => absurd present List.not_mem_nil
  | cons first _ ih =>
      intro index present
      rcases List.mem_cons.mp present with rfl | later
      · exact points _ _ first
      · exact ih index later

theorem Spells.sound (told : roots.Told) (spelled : Spelled items steps)
    (reached : Reached roots items) {item : Item} {step : Step} (spells : Spells items item step)
    (node : ∀ e, item = .node e → e ∈ roots.nodes) : step.Sound steps := by
  cases spells with
  | codec => trivial
  | @value v payload slot positions _ stored declared nested =>
      rw [spelled.codecs_eq] at declared
      refine ⟨⟨_, rfl, slot, _, rfl, declared, Value.tag_payload stored⟩, ?_, nofun⟩
      exact forall_pointsTo nested fun _ _ held => held.pointsTo spelled
  | outputValue marked => exact marked.pointsTo spelled
  | outputExpr marked => exact marked.pointsTo spelled
  | @node e _ _ builds =>
      have present := node e rfl
      cases builds with
      | literal content => exact content.pointsTo spelled
      | leaf => trivial
      | placeholder => trivial
      | apply content direct =>
          exact ⟨content.pointsTo_operator told spelled reached
              (Roots.content_mem_contents present rfl),
            forall_pointsTo direct fun _ _ held => held.pointsTo spelled⟩

theorem Spelled.sound (told : roots.Told) (spelled : Spelled items steps)
    (reached : Reached roots items) {position : Nat} {step : Step}
    (found : steps[position]? = some step) : step.Sound (steps.take position) := by
  rcases spelled.getElem? found with ⟨item, present, spells⟩
  have earlier : Reached roots (items.take position) :=
    reached.subset fun _ => List.mem_of_mem_take
  refine spells.sound told (spelled.take position) earlier fun e same => ?_
  exact reached.nodes e (same ▸ List.mem_of_getElem? present)

end Ledger

theorem Encoder.getElem?_of_mem_stream {encoder : Encoder} {placed : PlacedStep}
    (present : placed ∈ encoder.stream) :
    encoder.steps.toList[placed.index]? = some placed.step := by
  rcases List.mem_map.mp present with ⟨⟨step, index⟩, listed, rfl⟩
  exact List.mk_mem_zipIdx_iff_getElem?.mp listed

namespace Session

variable {trace : Trace} {encoder : Encoder} {operators : OperatorRegistry}

theorem status_of_expr_failure
    (session : Session (CodecRegistry.standard operators).encoder trace encoder) {e : Expr}
    (faithful : Faithful (Roots.hashed ⟨trace.roots.values, e :: trace.roots.exprs⟩))
    {problem : Problem} {after : Encoder}
    (failed : (Encoding.expr (CodecRegistry.standard operators).encoder e).run encoder =
      (.error problem, after)) :
    ∃ fault, problem = .fault fault ∧
      (fault.status = .invalidArgument ∨ fault.status = .unimplemented) := by
  have told := Roots.told faithful
  have earlier := Session.covered trace
  have added : ∀ d ∈ trace.roots.exprs,
      d ∈ Roots.exprs ⟨trace.roots.values, e :: trace.roots.exprs⟩ :=
    fun _ given => List.mem_cons_of_mem _ given
  have wider : ∀ v ∈ trace.roots.contents,
      v ∈ Roots.contents ⟨trace.roots.values, e :: trace.roots.exprs⟩ :=
    Roots.contents_subset (fun _ given => given) added
  have wider' : ∀ d ∈ trace.roots.nodes,
      d ∈ Roots.nodes ⟨trace.roots.values, e :: trace.roots.exprs⟩ := Roots.nodes_subset added
  obtain ⟨items, account⟩ := session.exists_account told
    ⟨fun v position present part inside =>
        wider part (earlier.values v position present part inside),
      fun d position present part inside =>
        wider' part (earlier.exprs d position present part inside)⟩
  obtain ⟨v, -, refused⟩ := ((Encoding.ensures_expr told
    (Roots.parts_subset_nodes List.mem_cons_self) account.books).of_failure failed).exists_refused
  exact Value.status_of_refused refused

/-- However an encoder is used, its steps refer to earlier steps of the right kind, and an
expression never misses a dependency. -/
theorem references_sound
    (session : Session (CodecRegistry.standard operators).encoder trace encoder)
    (faithful : Faithful trace.roots.hashed) :
    (∀ position (step : Step), encoder.steps.toList[position]? = some step →
      step.Sound (encoder.steps.toList.take position)) ∧
    (∀ placed ∈ encoder.stream, encoder.steps.toList[placed.index]? = some placed.step) ∧
    ∀ e, Faithful (Roots.hashed ⟨trace.roots.values, e :: trace.roots.exprs⟩) →
      ∀ text after, (Encoding.expr (CodecRegistry.standard operators).encoder e).run encoder ≠
        (.error (.of (.missingDependency text)), after) := by
  have told := Roots.told faithful
  rcases session.exists_account told (Session.covered trace) with ⟨items, account⟩
  refine ⟨fun position step found => ?_, fun placed present => ?_, ?_⟩
  · exact account.books.spelled.sound told account.books.reached found
  · exact Encoder.getElem?_of_mem_stream present
  · intro e faithful text after failed
    rcases session.status_of_expr_failure faithful failed with ⟨fault, same, status⟩
    rw [← Problem.fault.inj same] at status
    rcases status with status | status <;> exact absurd status nofun

theorem references_sound_sharing :
    ∃ trace encoder, Session (CodecRegistry.standard .empty).encoder trace encoder ∧
      trace.roots = Roots.sharing ∧
      (∀ position (step : Step), encoder.steps.toList[position]? = some step →
        step.Sound (encoder.steps.toList.take position)) ∧
      ∀ text after, (Encoding.expr (CodecRegistry.standard .empty).encoder
        (.apply .makeTuple [.leaf "x", .leaf "x"] .unknown)).run encoder ≠
          (.error (.of (.missingDependency text)), after) := by
  rcases exists_sharing .empty with ⟨trace, encoder, session, roots, -⟩
  have faithful : Faithful trace.roots.hashed := by
    rw [roots]
    exact Roots.faithful_sharing
  have again : Faithful (Roots.hashed ⟨trace.roots.values,
      .apply .makeTuple [.leaf "x", .leaf "x"] .unknown :: trace.roots.exprs⟩) := by
    rw [roots]
    refine Roots.faithful_sharing.subset (Roots.hashed_subset (fun _ given => given) ?_)
    intro e given
    exact (List.mem_cons.mp given).elim (fun same => same ▸ List.mem_cons_self) id
  rcases session.references_sound faithful with ⟨sound, -, found⟩
  exact ⟨trace, encoder, session, roots, sound, found _ again⟩

end Session

end ExprWire
