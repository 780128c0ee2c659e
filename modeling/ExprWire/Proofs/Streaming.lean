import ExprWire.Proofs.Effect
/-!
Runs of a decoder. A run takes steps one after the other, each at the next position; to replay the
steps of a container and to be given a stream both come to a run. The outputs that a container lists
are those of markers behind its steps, since the slots of markers are empty.
-/

namespace ExprWire

def PlacedStep.inOrder (first : Nat) (steps : List Step) : List PlacedStep :=
  (steps.zipIdx first).map fun (step, index) => ⟨index, step⟩

namespace Decoder

variable {decoder after : Decoder} {position limit : Nat} {step : Step} {steps : List Step}
  {effect : Effect} {index : Number} {outputValues outputExprs : List Number}
  {named decoded : Decoded}

def grow (decoder : Decoder) (effect : Effect) : Decoder :=
  (decoder.push .empty).perform decoder.size effect

@[simp] theorem size_grow (effect : Effect) :
    (decoder.grow effect).size = decoder.size + 1 := by
  simp [grow]

theorem slot_grow_last (effect : Effect) :
    (decoder.grow effect).slot decoder.size = effect.store .empty := by
  rw [grow, slot_perform_self effect (by simp), slot_push_last]

theorem slot_grow_of_ne (apart : position ≠ decoder.size) :
    (decoder.grow effect).slot position = decoder.slot position := by
  rw [grow, slot_perform_of_ne apart, slot_push_empty]

@[simp] theorem failed_grow (effect : Effect) : (decoder.grow effect).failed = decoder.failed :=
  failed_perform effect

@[simp] theorem options_grow (effect : Effect) :
    (decoder.grow effect).options = decoder.options := by
  cases effect <;> rfl

@[simp] theorem lookup_grow (effect : Effect) :
    (decoder.grow effect).lookup = decoder.lookup := by
  cases effect <;> rfl

/-- That steps are accepted one after the other, each at the next position. -/
inductive Run [Extension] : Decoder → List Step → Decoder → Prop where
  | done (decoder : Decoder) : Run decoder [] decoder
  | next {decoder after : Decoder} {step : Step} {steps : List Step} {effect : Effect}
      (settles : decoder.Settles decoder.size step effect)
      (rest : Run (decoder.grow effect) steps after) : Run decoder (step :: steps) after

@[simp] theorem run_nil_iff [Extension] : Run decoder [] after ↔ decoder = after := by
  constructor
  · intro run
    cases run
    rfl
  · rintro rfl
    exact .done decoder

theorem run_cons_iff [Extension] : Run decoder (step :: steps) after ↔
    ∃ effect, decoder.Settles decoder.size step effect ∧ Run (decoder.grow effect) steps after := by
  constructor
  · intro run
    cases run with
    | next settles rest => exact ⟨_, settles, rest⟩
  · rintro ⟨effect, settles, rest⟩
    exact .next settles rest

theorem run_append_iff [Extension] {more : List Step} : Run decoder (steps ++ more) after ↔
    ∃ middle, Run decoder steps middle ∧ Run middle more after := by
  induction steps generalizing decoder with
  | nil => simp only [List.nil_append, run_nil_iff, exists_eq_left']
  | cons step steps ih =>
      simp only [List.cons_append, run_cons_iff, ih]
      constructor
      · rintro ⟨effect, settles, middle, first, second⟩
        exact ⟨middle, ⟨effect, settles, first⟩, second⟩
      · rintro ⟨middle, ⟨effect, settles, first⟩, second⟩
        exact ⟨effect, settles, middle, first, second⟩

theorem Run.usable [Extension] (run : Run decoder steps after) (usable : decoder.failed = false) :
    after.failed = false := by
  induction run with
  | done decoder => exact usable
  | next settles rest ih => exact ih ((failed_grow _).trans usable)

theorem onStep_size [Extension] (usable : decoder.failed = false) (step : Step) :
    decoder.onStep (.ofNat decoder.size) step =
      (decoder.push .empty).conclude decoder.size (decoder.settle decoder.size step) := by
  rw [onStep_ofNat usable (Nat.le_refl _), opened, if_neg (Nat.lt_irrefl _)]

theorem onSteps_eq_ok_iff [Extension] (usable : decoder.failed = false) :
    decoder.onSteps (PlacedStep.inOrder decoder.size steps) = .ok after ↔
      Run decoder steps after := by
  induction steps generalizing decoder with
  | nil =>
      rw [run_nil_iff]
      exact ⟨Except.ok.inj, congrArg Except.ok⟩
  | cons step steps ih =>
      have rest (effect : Effect) := ih ((failed_grow effect).trans usable)
      simp only [size_grow] at rest
      simp only [run_cons_iff, ← settle_eq_ok_iff, ← rest]
      rw [PlacedStep.inOrder, List.zipIdx_cons, List.map_cons, onSteps]
      simp only [onStep_size usable]
      cases decoder.settle decoder.size step with
      | error problem => exact ⟨nofun, fun ⟨_, accepted, _⟩ => absurd accepted nofun⟩
      | ok effect =>
          simp only [Except.ok.injEq, exists_eq_left']
          exact Iff.rfl

theorem replaySteps_eq_ok_iff [Extension] (usable : decoder.failed = false) :
    decoder.replaySteps decoder.size steps = .ok after ↔ Run decoder steps after := by
  induction steps generalizing decoder with
  | nil =>
      rw [run_nil_iff]
      exact ⟨Except.ok.inj, congrArg Except.ok⟩
  | cons step steps ih =>
      have rest (effect : Effect) := ih ((failed_grow effect).trans usable)
      simp only [size_grow] at rest
      simp only [run_cons_iff, ← settle_eq_ok_iff, ← rest]
      rw [replaySteps]
      simp only [onStep_size usable]
      cases decoder.settle decoder.size step with
      | error problem => exact ⟨nofun, fun ⟨_, accepted, _⟩ => absurd accepted nofun⟩
      | ok effect =>
          simp only [Except.ok.injEq, exists_eq_left']
          exact Iff.rfl

theorem replaySteps_eq_error_iff [Extension] {problem : Problem} (usable : decoder.failed = false) :
    decoder.replaySteps decoder.size steps = .error problem ↔
      ∃ earlier step later before rejection, steps = earlier ++ step :: later ∧
        Run decoder earlier before ∧ before.settle before.size step = .error rejection ∧
        problem = .fault (rejection.withNote (.handlingStep before.size)) := by
  induction steps generalizing decoder with
  | nil =>
      refine ⟨nofun, ?_⟩
      rintro ⟨earlier, step, later, before, rejection, same, -⟩
      exact absurd same.symm (List.append_ne_nil_of_right_ne_nil _ (List.cons_ne_nil _ _))
  | cons step steps ih =>
      rw [replaySteps]
      simp only [onStep_size usable]
      cases settled : decoder.settle decoder.size step with
      | error rejection =>
          constructor
          · rintro ⟨⟩
            exact ⟨[], step, steps, decoder, rejection, rfl, .done decoder, settled, rfl⟩
          · rintro ⟨earlier, other, later, before, rejection', same, run, settled', rfl⟩
            cases run with
            | done _ =>
                cases same
                cases settled.symm.trans settled'
                rfl
            | next settles rest =>
                cases same
                cases settled.symm.trans (settle_eq_ok_iff.mpr settles)
      | ok effect =>
          have rest := ih ((failed_grow effect).trans usable)
          rw [size_grow] at rest
          refine rest.trans ⟨?_, ?_⟩
          · rintro ⟨earlier, other, later, before, rejection, rfl, run, settled', rfl⟩
            exact ⟨step :: earlier, other, later, before, rejection, rfl,
              .next (settle_eq_ok_iff.mp settled) run, settled', rfl⟩
          · rintro ⟨earlier, other, later, before, rejection, same, run, settled', rfl⟩
            cases run with
            | done _ =>
                cases same
                cases settled.symm.trans settled'
            | next settles run =>
                cases same
                cases settled.symm.trans (settle_eq_ok_iff.mpr settles)
                exact ⟨_, other, later, before, rejection, rfl, run, settled', rfl⟩

theorem Run.size_eq [Extension] (run : Run decoder steps after) :
    after.size = decoder.size + steps.length := by
  induction run with
  | done decoder => rfl
  | next settles rest ih =>
      rw [ih, size_grow, List.length_cons]
      omega

theorem Run.unique [Extension] {other : Decoder} (run : Run decoder steps after)
    (usable : decoder.failed = false) (run' : Run decoder steps other) : after = other :=
  Except.ok.inj (((replaySteps_eq_ok_iff usable).mpr run).symm.trans
    ((replaySteps_eq_ok_iff usable).mpr run'))

/-- That an index denotes a position with this value. -/
def ValueAt (decoder : Decoder) (index : Number) (v : Value) : Prop :=
  ∃ position, index = .ofNat position ∧ (decoder.slot position).value = some v

def ExprAt (decoder : Decoder) (index : Number) (e : Expr) : Prop :=
  ∃ position, index = .ofNat position ∧ (decoder.slot position).expr = some e

@[simp] theorem valueAt_ofNat {v : Value} :
    decoder.ValueAt (.ofNat position) v ↔ (decoder.slot position).value = some v := by
  constructor
  · rintro ⟨_, denoted, held⟩
    cases denoted
    exact held
  · exact fun held => ⟨position, rfl, held⟩

@[simp] theorem exprAt_ofNat {e : Expr} :
    decoder.ExprAt (.ofNat position) e ↔ (decoder.slot position).expr = some e := by
  constructor
  · rintro ⟨_, denoted, held⟩
    cases denoted
    exact held
  · exact fun held => ⟨position, rfl, held⟩

theorem lt_size_of_ne_empty (filled : decoder.slot position ≠ .empty) :
    position < decoder.size := by
  by_contra beyond
  exact filled (slot_of_size_le (Nat.le_of_not_lt beyond))

theorem loadValue_size_eq_ok_iff {index : Number} {v : Value} :
    decoder.loadValue decoder.size index = .ok v ↔ decoder.ValueAt index v := by
  rw [loadValue_eq_ok_iff]
  refine exists_congr fun position => and_congr_right fun _ => and_iff_right_of_imp fun held => ?_
  exact lt_size_of_ne_empty fun empty => absurd (empty ▸ held) nofun

theorem loadExpr_size_eq_ok_iff {index : Number} {e : Expr} :
    decoder.loadExpr decoder.size index = .ok e ↔ decoder.ExprAt index e := by
  rw [loadExpr_eq_ok_iff]
  refine exists_congr fun position => and_congr_right fun _ => and_iff_right_of_imp fun held => ?_
  exact lt_size_of_ne_empty fun empty => absurd (empty ▸ held) nofun

theorem loadValues_size_eq_ok_iff {indices : List Number} {vs : List Value} :
    indices.mapM (decoder.loadValue decoder.size) = .ok vs ↔
      List.Forall₂ decoder.ValueAt indices vs :=
  mapM_eq_ok_iff.trans (by simp only [loadValue_size_eq_ok_iff])

theorem loadExprs_size_eq_ok_iff {indices : List Number} {es : List Expr} :
    indices.mapM (decoder.loadExpr decoder.size) = .ok es ↔
      List.Forall₂ decoder.ExprAt indices es :=
  mapM_eq_ok_iff.trans (by simp only [loadExpr_size_eq_ok_iff])

def marked (decoder : Decoder) : Decoded := ⟨decoder.outputValues, decoder.outputExprs⟩

/-- That what stands at some positions, behind outputs that have been named before, is what decoding
yields. -/
def Yields (decoder : Decoder) (named : Decoded) (outputValues outputExprs : List Number)
    (decoded : Decoded) : Prop :=
  ∃ vs es, List.Forall₂ decoder.ValueAt outputValues vs ∧
    List.Forall₂ decoder.ExprAt outputExprs es ∧ decoded = ⟨named.values ++ vs, named.exprs ++ es⟩

@[simp] theorem yields_nil_iff : decoder.Yields named [] [] decoded ↔ decoded = named := by
  simp [Yields]

theorem yields_value_iff : decoder.Yields named (index :: outputValues) outputExprs decoded ↔
    ∃ v, decoder.ValueAt index v ∧
      decoder.Yields ⟨named.values ++ [v], named.exprs⟩ outputValues outputExprs decoded := by
  simp only [Yields, List.append_assoc, List.singleton_append]
  constructor
  · rintro ⟨_, es, values, exprs, rfl⟩
    obtain ⟨v, vs, here, others, rfl⟩ := List.forall₂_cons_left_iff.mp values
    exact ⟨v, here, vs, es, others, exprs, rfl⟩
  · rintro ⟨v, here, vs, es, others, exprs, rfl⟩
    exact ⟨v :: vs, es, .cons here others, exprs, rfl⟩

theorem yields_expr_iff : decoder.Yields named outputValues (index :: outputExprs) decoded ↔
    ∃ e, decoder.ExprAt index e ∧
      decoder.Yields ⟨named.values, named.exprs ++ [e]⟩ outputValues outputExprs decoded := by
  simp only [Yields, List.append_assoc, List.singleton_append]
  constructor
  · rintro ⟨vs, _, values, exprs, rfl⟩
    obtain ⟨e, es, here, others, rfl⟩ := List.forall₂_cons_left_iff.mp exprs
    exact ⟨e, here, vs, es, values, others, rfl⟩
  · rintro ⟨e, here, vs, es, values, others, rfl⟩
    exact ⟨vs, e :: es, values, .cons here others, rfl⟩

theorem run_outputValue_iff [Extension] : Run decoder (.outputValue index :: steps) after ↔
    ∃ v, decoder.ValueAt index v ∧ Run (decoder.grow (.outputValue v)) steps after := by
  simp only [run_cons_iff, ← loadValue_size_eq_ok_iff]
  constructor
  · rintro ⟨effect, settles, rest⟩
    cases settles with
    | outputValue loaded => exact ⟨_, loaded, rest⟩
  · rintro ⟨v, loaded, rest⟩
    exact ⟨_, .outputValue loaded, rest⟩

theorem run_outputExpr_iff [Extension] : Run decoder (.outputExpr index :: steps) after ↔
    ∃ e, decoder.ExprAt index e ∧ Run (decoder.grow (.outputExpr e)) steps after := by
  simp only [run_cons_iff, ← loadExpr_size_eq_ok_iff]
  constructor
  · rintro ⟨effect, settles, rest⟩
    cases settles with
    | outputExpr loaded => exact ⟨_, loaded, rest⟩
  · rintro ⟨e, loaded, rest⟩
    exact ⟨_, .outputExpr loaded, rest⟩

theorem exists_run_iff {α : Type} {held : α → Prop} {run : α → Decoder → Prop}
    {last : Decoder → Prop} : (∃ after, (∃ a, held a ∧ run a after) ∧ last after) ↔
      ∃ a, held a ∧ ∃ after, run a after ∧ last after := by
  constructor
  · rintro ⟨after, ⟨a, here, ran⟩, ended⟩
    exact ⟨a, here, after, ran, ended⟩
  · rintro ⟨a, here, after, ran, ended⟩
    exact ⟨after, ⟨a, here, ran⟩, ended⟩

theorem slot_grow_marker (unstored : effect.store .empty = .empty) :
    (decoder.grow effect).slot = decoder.slot := by
  funext position
  by_cases here : position = decoder.size
  · rw [here, slot_grow_last, unstored, slot_of_size_le (Nat.le_refl _)]
  · exact slot_grow_of_ne here

theorem yields_congr {left right : Decoder} (slots : left.slot = right.slot) :
    left.Yields = right.Yields := by
  funext named outputValues outputExprs decoded
  have values : left.ValueAt = right.ValueAt := by
    funext index v
    rw [ValueAt, ValueAt, slots]
  have exprs : left.ExprAt = right.ExprAt := by
    funext index e
    rw [ExprAt, ExprAt, slots]
  rw [Yields, Yields, values, exprs]

theorem run_markers_iff [Extension] :
    (∃ after, Run decoder (outputValues.map Step.outputValue ++ outputExprs.map Step.outputExpr)
      after ∧ decoded = after.marked) ↔
      decoder.Yields decoder.marked outputValues outputExprs decoded := by
  induction outputValues generalizing decoder with
  | cons index outputValues ih =>
      simp only [List.map_cons, List.cons_append, run_outputValue_iff, yields_value_iff]
      rw [exists_run_iff]
      refine exists_congr fun v => and_congr_right fun _ => ?_
      rw [ih, yields_congr (slot_grow_marker rfl)]
      rfl
  | nil =>
      induction outputExprs generalizing decoder with
      | nil => simp
      | cons index outputExprs ih =>
          rw [List.map_nil, List.nil_append] at ih ⊢
          simp only [List.map_cons, run_outputExpr_iff, yields_expr_iff]
          rw [exists_run_iff]
          refine exists_congr fun e => and_congr_right fun _ => ?_
          rw [ih, yields_congr (slot_grow_marker rfl)]
          rfl

end Decoder

variable {lookup : CodecLookup} {options : Options} {steps : List Step}
  {outputValues outputExprs : List Number} {decoded : Decoded}

open Decoder (Run)

theorem Decoder.finish_eq_ok_iff {decoder : Decoder} (usable : decoder.failed = false) :
    decoder.finish = .ok decoded ↔ decoded = decoder.marked := by
  rw [finish, ensureUsable_eq usable]
  exact ⟨fun same => (Except.ok.inj same).symm, fun same => congrArg Except.ok same.symm⟩

theorem Decoder.outputs_eq_ok_iff {decoder : Decoder} (usable : decoder.failed = false) :
    (do
      let marked ← decoder.finish
      let values ← annotate .loadingOutputValues (decoder.resolveValues outputValues)
      let exprs ← annotate .loadingOutputExprs (decoder.resolveExprs outputExprs)
      return ⟨marked.values ++ values, marked.exprs ++ exprs⟩ : Outcome Decoded) = .ok decoded ↔
      decoder.Yields decoder.marked outputValues outputExprs decoded := by
  have values (vs : List Value) : decoder.resolveValues outputValues = .ok vs ↔
      List.Forall₂ decoder.ValueAt outputValues vs := by
    rw [resolveValues, ensureUsable_eq usable]
    exact loadValues_size_eq_ok_iff
  have exprs (es : List Expr) : decoder.resolveExprs outputExprs = .ok es ↔
      List.Forall₂ decoder.ExprAt outputExprs es := by
    rw [resolveExprs, ensureUsable_eq usable]
    exact loadExprs_size_eq_ok_iff
  simp only [bind_eq_ok_iff, annotate_eq_ok_iff, finish_eq_ok_iff usable, values, exprs,
    exists_eq_left]
  constructor
  · rintro ⟨vs, held, es, held', same⟩
    exact ⟨vs, es, held, held', (Except.ok.inj same).symm⟩
  · rintro ⟨vs, es, held, held', rfl⟩
    exact ⟨vs, held, es, held', rfl⟩

variable [Extension]

theorem PlacedStep.decodeStream_eq_ok_iff :
    decodeStream lookup options (inOrder 0 steps) = .ok decoded ↔
      ∃ after, Run (.start lookup options) steps after ∧ decoded = after.marked := by
  have runs (after : Decoder) : (Decoder.start lookup options).onSteps (inOrder 0 steps) =
      .ok after ↔ Run (.start lookup options) steps after := Decoder.onSteps_eq_ok_iff rfl
  simp only [decodeStream, bind_eq_ok_iff, runs]
  exact exists_congr fun after => and_congr_right fun run =>
    Decoder.finish_eq_ok_iff (run.usable rfl)

theorem Container.decode_eq_ok_iff :
    decode lookup options ⟨some currentVersion, steps, outputValues, outputExprs⟩ = .ok decoded ↔
      ∃ after, Run (.start lookup options) steps after ∧
        after.Yields after.marked outputValues outputExprs decoded := by
  have current : checkVersion ⟨some currentVersion, steps, outputValues, outputExprs⟩ = .ok () := by
    simp [checkVersion]
  have runs (after : Decoder) : (Decoder.start lookup options).replaySteps 0 steps = .ok after ↔
      Run (.start lookup options) steps after := Decoder.replaySteps_eq_ok_iff rfl
  rw [decode, current]
  change replay lookup options ⟨_, steps, outputValues, outputExprs⟩ = _ ↔ _
  refine bind_eq_ok_iff.trans (exists_congr fun after => ?_)
  rw [runs]
  exact and_congr_right fun run => Decoder.outputs_eq_ok_iff (run.usable rfl)

theorem Container.decode_iff_run {container : Container} :
    container.decode lookup options = .ok decoded ↔
      container.version = some currentVersion ∧
        ∃ after, Run (.start lookup options) container.steps after ∧
          after.Yields after.marked container.outputValues container.outputExprs decoded := by
  obtain ⟨version, steps, outputValues, outputExprs⟩ := container
  constructor
  · intro decodes
    have current : version = some currentVersion := by
      obtain ⟨_, checked, -⟩ := bind_eq_ok_iff.mp decodes
      cases version with
      | none => exact absurd checked nofun
      | some other =>
          by_contra apart
          have wrong : checkVersion ⟨some other, steps, outputValues, outputExprs⟩ =
              raise (.wrongVersion other) := by
            simp only [checkVersion]
            exact if_neg fun same => apart (congrArg some same)
          exact absurd (wrong.symm.trans checked) nofun
    subst current
    exact ⟨rfl, decode_eq_ok_iff.mp decodes⟩
  · rintro ⟨rfl, ran⟩
    exact decode_eq_ok_iff.mpr ran

/-- Decoding a whole container and decoding one step at a time agree, whatever the steps are: the
outputs that the container lists are those of markers that follow its steps, first for the values
and then for the expressions. -/
theorem decode_iff_decodeStream (lookup : CodecLookup) (options : Options) (steps : List Step)
    (outputValues outputExprs : List Number) (decoded : Decoded) :
    Container.decode lookup options
        ⟨some Container.currentVersion, steps, outputValues, outputExprs⟩ = .ok decoded ↔
      PlacedStep.decodeStream lookup options (PlacedStep.inOrder 0 (steps ++
        (outputValues.map Step.outputValue ++ outputExprs.map Step.outputExpr))) =
          .ok decoded := by
  rw [Container.decode_eq_ok_iff, PlacedStep.decodeStream_eq_ok_iff]
  constructor
  · rintro ⟨middle, first, yields⟩
    obtain ⟨after, last, same⟩ := Decoder.run_markers_iff.mpr yields
    exact ⟨after, Decoder.run_append_iff.mpr ⟨middle, first, last⟩, same⟩
  · rintro ⟨after, run, same⟩
    obtain ⟨middle, first, last⟩ := Decoder.run_append_iff.mp run
    exact ⟨middle, first, Decoder.run_markers_iff.mp ⟨after, last, same⟩⟩

end ExprWire
