import ExprWire.Expr.Call
import ExprWire.Proofs.Identity
import ExprWire.Proofs.Units
/-!
The short renderings of expressions. Unless fingerprints collide, the texts kept for fingerprints
are those that are computed anew, so a rendering does not depend on what was rendered before it.
`renderUnits` spells out the 16-bit units of these texts, from which the bound on their width
follows.
-/

namespace ExprWire

theorem Operator.name_plain (operator : Operator) : operator.plain.name = operator.name := by
  cases operator <;> rfl

namespace Value

theorem renderAll_eq (vs : List Value) : renderAll vs = vs.map render := by
  induction vs with
  | nil => rfl
  | cons v vs ih => rw [renderAll, ih, List.map_cons]

theorem render_plain (v : Value) : v.plain.render = v.render := by
  induction v using byFields with
  | step v ih =>
      cases v with
      | tuple fields =>
          have texts : (fields.map plain).map render = fields.map render := by
            rw [List.map_map]
            exact List.map_congr_left ih
          rw [plain, plainAll_eq, render, render, renderAll_eq, renderAll_eq, texts]
      | operator op => exact op.name_plain
      | _ => rfl

end Value

namespace Expr

theorem renderAllPlain_eq (es : List Expr) : renderAllPlain es = es.map renderPlain := by
  induction es with
  | nil => rfl
  | cons e es ih => rw [renderAllPlain, ih, List.map_cons]

theorem renderPlain_plain (e : Expr) : e.plain.renderPlain = e.renderPlain := by
  induction e using byDeps with
  | step e ih =>
      cases e with
      | literal v => rw [plain, renderPlain, renderPlain, Value.render_plain]
      | apply op deps attributes =>
          have texts : (deps.map plain).map renderPlain = deps.map renderPlain := by
            rw [List.map_map]
            exact List.map_congr_left ih
          rw [plain, plainAll_eq, renderPlain, renderPlain, renderAllPlain_eq, renderAllPlain_eq,
            texts, Operator.name_plain]
      | _ => rfl

theorem Same.renderPlain_eq {d e : Expr} (same : d.Same e) : d.renderPlain = e.renderPlain := calc
  d.renderPlain = d.plain.renderPlain := d.renderPlain_plain.symm
  _ = e.plain.renderPlain := congrArg renderPlain (same_iff.mp same)
  _ = e.renderPlain := e.renderPlain_plain

def Kept (es : List Expr) (texts : Renderings) : Prop :=
  ∀ e ∈ es, ∀ text, texts[e.fingerprint]? = some text → text = e.renderPlain

def Computes {α : Type} (es : List Expr) (action : StateM Renderings α) (result : α) : Prop :=
  ∀ texts, Kept es texts → ∃ texts', action.run texts = (result, texts') ∧ Kept es texts'

section

variable {es : List Expr} {α β : Type}

theorem Kept.empty : Kept es ∅ := by
  intro e _ text found
  simp at found

theorem Computes.pure (a : α) : Computes es (pure a) a :=
  fun texts kept => ⟨texts, rfl, kept⟩

theorem Computes.bind {action : StateM Renderings α} {next : α → StateM Renderings β} {a : α}
    {b : β} (first : Computes es action a) (second : Computes es (next a) b) :
    Computes es (action >>= next) b := by
  intro texts kept
  obtain ⟨middle, ran, kept⟩ := first texts kept
  obtain ⟨texts', ran', kept⟩ := second middle kept
  refine ⟨texts', ?_, kept⟩
  rw [StateT.run_bind, ran]
  exact ran'

theorem run_remembered (print : Fingerprint) (full : StateM Renderings String)
    (texts : Renderings) : (remembered print full).run texts =
      match texts[print]? with
      | some text => (text, texts)
      | none =>
          let text := Text.cap renderLimit (full.run texts).1
          (text, (full.run texts).2.insert print text) := by
  cases found : texts[print]? with
  | some text =>
      simp [remembered, found]
      rfl
  | none =>
      simp [remembered, found]
      rfl

theorem computes_renderAllWith {deps : List Expr}
    (single : ∀ dep ∈ deps, Computes es (renderWith dep) dep.renderPlain) :
    Computes es (renderAllWith deps) (deps.map renderPlain) := by
  induction deps with
  | nil => exact .pure _
  | cons dep deps ih =>
      rw [renderAllWith]
      apply (single dep List.mem_cons_self).bind
      apply (ih fun dep later => single dep (List.mem_cons_of_mem _ later)).bind
      exact .pure _

variable (uncollided : Uncollided es)
include uncollided

theorem Kept.insert {texts : Renderings} (kept : Kept es texts) {e : Expr} (present : e ∈ es) :
    Kept es (texts.insert e.fingerprint e.renderPlain) := by
  intro other present' text found
  rw [Std.TreeMap.getElem?_insert] at found
  split at found
  · have print : e.fingerprint = other.fingerprint :=
      Std.LawfulEqOrd.compare_eq_iff_eq.mp ‹_›
    have same : e.Same other := uncollided e present other present' print
    rw [← Option.some.inj found, same.renderPlain_eq]
  · exact kept other present' text found

theorem computes_remembered {e : Expr} (present : e ∈ es) {full : StateM Renderings String}
    {text : String} (computed : Computes es full text)
    (capped : Text.cap renderLimit text = e.renderPlain) :
    Computes es (remembered e.fingerprint full) e.renderPlain := by
  intro texts kept
  rw [run_remembered]
  cases found : texts[e.fingerprint]? with
  | some known => exact ⟨texts, by rw [kept e present known found], kept⟩
  | none =>
      obtain ⟨texts', ran, kept'⟩ := computed texts kept
      exact ⟨texts'.insert e.fingerprint e.renderPlain, by rw [ran, ← capped],
        kept'.insert uncollided present⟩

theorem computes_renderWith {e : Expr} (inside : ∀ part ∈ e.parts, part ∈ es) :
    Computes es (renderWith e) e.renderPlain := by
  induction e using byDeps with
  | step e ih =>
      have present : e ∈ es := inside e e.self_mem_parts
      cases e with
      | apply op deps attributes =>
          have args : Computes es (renderAllWith deps) (deps.map renderPlain) :=
            computes_renderAllWith fun dep direct =>
              ih dep direct fun part within => inside part (mem_parts_of_dep direct within)
          have capped : Text.cap renderLimit (applied op.name (deps.map renderPlain)) =
              (apply op deps attributes).renderPlain := by
            rw [renderPlain, renderAllPlain_eq]
          exact computes_remembered uncollided present (args.bind (.pure _)) capped
      | _ => exact computes_remembered uncollided present (.pure _) rfl

theorem render_eq {e : Expr} (inside : ∀ part ∈ e.parts, part ∈ es) : e.render = e.renderPlain := by
  obtain ⟨texts, ran, -⟩ := computes_renderWith uncollided inside ∅ .empty
  rw [render, ran]

theorem renderAll_eq {deps : List Expr} (inside : ∀ dep ∈ deps, ∀ part ∈ dep.parts, part ∈ es) :
    renderAll deps = deps.map render := by
  have single : ∀ dep ∈ deps, Computes es (renderWith dep) dep.renderPlain :=
    fun dep listed => computes_renderWith uncollided (inside dep listed)
  obtain ⟨texts, ran, -⟩ := computes_renderAllWith single ∅ .empty
  rw [renderAll, ran]
  exact List.map_congr_left fun dep listed => (render_eq uncollided (inside dep listed)).symm

end

/-- More than 256 units are cut to the first 253, followed by three dots. -/
def shortened (us : List Nat) : List Nat :=
  if 256 < us.length then us.take 253 ++ Text.units "..." else us

mutual

def renderUnits : Expr → List Nat
  | .literal value => shortened (Text.units value.render)
  | .leaf key => shortened (Text.units ("L." ++ key))
  | .placeholder key => shortened (Text.units ("P." ++ key))
  | .apply op deps _ =>
      shortened (Text.units (op.name ++ "(") ++
        (Text.units ", ").intercalate (renderAllUnits deps) ++ Text.units ")")

def renderAllUnits : List Expr → List (List Nat)
  | [] => []
  | expr :: exprs => renderUnits expr :: renderAllUnits exprs

end

theorem renderAllUnits_eq (es : List Expr) : renderAllUnits es = es.map renderUnits := by
  induction es with
  | nil => rfl
  | cons e es ih => rw [renderAllUnits, ih, List.map_cons]

theorem length_shortened_le (us : List Nat) : (shortened us).length ≤ 256 := by
  rw [shortened]
  split
  · have dots : (Text.units "...").length = 3 := by decide
    rw [List.length_append, List.length_take, dots]
    omega
  · omega

theorem spells_shortened {us : List Nat} {text : String} (spells : Text.Spells us text.toList) :
    Text.Spells (shortened us) (Text.cap renderLimit text).toList := by
  have width : us.length = Text.width text := spells.length_eq
  rw [shortened, Text.cap, renderLimit, width]
  split
  · rw [String.toList_append, String.toList_ofList]
    exact spells.cut 253
  · exact spells

theorem spells_intercalate {uss : List (List Nat)} {texts : List String}
    (spells : List.Forall₂ (fun us text => Text.Spells us text.toList) uss texts) :
    Text.Spells ((Text.units ", ").intercalate uss) (", ".intercalate texts).toList := by
  rw [String.toList_intercalate]
  induction spells with
  | nil => exact .nil
  | @cons us text uss texts first others ih =>
      cases others with
      | nil => simpa using first
      | cons second rest =>
          rw [List.map_cons, List.map_cons, List.intercalate_cons_cons, List.intercalate_cons_cons]
          exact (first.append (.text ", ")).append ih

theorem spells_renderUnits (e : Expr) : Text.Spells e.renderUnits e.renderPlain.toList := by
  induction e using byDeps with
  | step e ih =>
      cases e with
      | literal value => exact spells_shortened (.text value.render)
      | leaf key => exact spells_shortened (.text ("L." ++ key))
      | placeholder key => exact spells_shortened (.text ("P." ++ key))
      | apply op deps attributes =>
          have args : List.Forall₂ (fun us text => Text.Spells us text.toList)
              (renderAllUnits deps) (renderAllPlain deps) := by
            rw [renderAllUnits_eq, renderAllPlain_eq, List.forall₂_map_left_iff,
              List.forall₂_map_right_iff, List.forall₂_same]
            exact ih
          rw [renderUnits, renderPlain]
          apply spells_shortened
          rw [applied, String.toList_append, String.toList_append]
          exact ((Text.Spells.text _).append (spells_intercalate args)).append (.text ")")

theorem units_renderPlain (e : Expr) : Text.units e.renderPlain = Text.mended e.renderUnits :=
  e.spells_renderUnits.mended_eq.symm

theorem length_renderUnits_le (e : Expr) : e.renderUnits.length ≤ 256 := by
  cases e <;> exact length_shortened_le _

theorem width_renderPlain_le (e : Expr) : Text.width e.renderPlain ≤ 256 := calc
  Text.width e.renderPlain = e.renderUnits.length := e.spells_renderUnits.length_eq.symm
  _ ≤ 256 := e.length_renderUnits_le

theorem call_eq_error_iff [Extension] {op : Operator} {deps : List Expr} {infer : Bool}
    {problem : Problem} :
    call op deps infer = .error problem ↔ op.signature.arity.accepts deps.length = false ∧
      problem = .fault ⟨.wrongDependencyCount op.signature.arity deps.length,
        [.callingOperator op.name (renderAll deps)]⟩ := by
  rw [call, Signature.checkCount]
  cases op.signature.arity.accepts deps.length with
  | true => simp [pure, Except.pure]
  | false =>
      simp [raise, Problem.of, Problem.withNote, Fault.addNote, throw, throwThe,
        MonadExceptOf.throw]
      exact eq_comm

theorem message_callingOperator (cause : Cause) (name : String) (args : List String) :
    (Problem.fault ⟨cause, [.callingOperator name args]⟩).message = cause.message ++
      "; while calling " ++ name ++ " with args \x7b" ++ ", ".intercalate args ++ "\x7d" := by
  have echo : (Note.callingOperator name args).text =
      "while calling " ++ name ++ " with args \x7b" ++ ", ".intercalate args ++ "\x7d" := rfl
  have opening : "; while calling " = "; " ++ "while calling " := by decide
  rw [Problem.message, Fault.message, List.map_cons, List.map_nil, String.intercalate_cons_cons,
    String.intercalate_singleton, echo, opening]
  simp only [String.append_assoc]

/-- Unless fingerprints collide, renderings that share texts are the plain ones, of at most 256
units and each built from the capped ones of its dependencies; and an operator that refuses some
expressions shows them as they are rendered one by one. -/
theorem renderings_plain [Extension] {es : List Expr} (uncollided : Uncollided (es.flatMap parts)) :
    (∀ e ∈ es.flatMap parts, e.render = e.renderPlain ∧
      Text.units e.render = Text.mended e.renderUnits ∧ Text.width e.render ≤ 256) ∧
    ∀ op infer problem, call op es infer = .error problem →
      problem = .fault ⟨.wrongDependencyCount op.signature.arity es.length,
        [.callingOperator op.name (es.map render)]⟩ ∧
      problem.message = (Cause.wrongDependencyCount op.signature.arity es.length).message ++
        "; while calling " ++ op.name ++ " with args \x7b" ++ ", ".intercalate (es.map render) ++
        "\x7d" := by
  constructor
  · intro e present
    have inside : ∀ part ∈ e.parts, part ∈ es.flatMap parts := by
      obtain ⟨root, listed, within⟩ := List.mem_flatMap.mp present
      intro part nested
      exact List.mem_flatMap.mpr ⟨root, listed, parts_trans within nested⟩
    rw [render_eq uncollided inside]
    exact ⟨rfl, e.units_renderPlain, e.width_renderPlain_le⟩
  · intro op infer problem refused
    have shown : renderAll es = es.map render :=
      renderAll_eq uncollided fun dep listed part within =>
        List.mem_flatMap.mpr ⟨dep, listed, within⟩
    have cause := (call_eq_error_iff.mp refused).2
    rw [shown] at cause
    exact ⟨cause, by rw [cause, message_callingOperator]⟩

theorem renderings_plain_pair :
    let negation := Operator.backend "math.neg" ⟨["x"], none, by decide, by decide⟩ "" none
    Uncollided ([pair, .leaf "x"].flatMap parts) ∧
    ∃ problem, call negation [pair, .leaf "x"] = .error problem ∧
      problem.message =
        "incorrect number of dependencies passed to an operator node: expected 1 but got 2; " ++
          "while calling math.neg with args \x7bcore.make_tuple(L.x, L.x), L.x\x7d" := by
  intro negation
  have uncollided : Uncollided ([pair, .leaf "x"].flatMap parts) := by
    apply uncollided_pair.subset
    simp [pair, parts, partsAll]
  have shared := renderings_plain uncollided
  have texts : [pair, .leaf "x"].map render = ["core.make_tuple(L.x, L.x)", "L.x"] := by
    have plain : ∀ e ∈ [pair, .leaf "x"], e.render = e.renderPlain := fun e listed =>
      (shared.1 e (List.mem_flatMap_of_mem listed e.self_mem_parts)).1
    rw [List.map_congr_left plain]
    decide
  obtain ⟨problem, refused⟩ : ∃ problem, call negation [pair, .leaf "x"] = .error problem :=
    ⟨_, call_eq_error_iff.mpr ⟨rfl, rfl⟩⟩
  refine ⟨uncollided, problem, refused, ?_⟩
  rw [(shared.2 negation true problem refused).2, texts]
  decide +kernel

end Expr

end ExprWire
