import Mathlib.Data.Nat.Basic
import Mathlib.Order.Monotone.Defs
import ExprWire.Proofs.Streaming
/-!
Steps without their markers. The other steps keep their order and move up into the gaps, with their
references after them, and what the markers refer to is listed at the end. Where every step refers
to earlier steps that are no markers, decoding gives the same.
-/

namespace ExprWire

def Number.mapPosition (place : Nat → Nat) (index : Number) : Number :=
  match index.toNat? with
  | some position => .ofNat (place position)
  | none => index

@[simp] theorem Number.mapPosition_ofNat (place : Nat → Nat) (position : Nat) :
    (Number.ofNat position).mapPosition place = .ofNat (place position) := rfl

namespace Step

variable {step : Step} {place place' : Nat → Nat}

def isMarker : Step → Bool
  | .outputValue _ | .outputExpr _ => true
  | _ => false

def references : Step → List Number
  | .value _ _ values exprs => values ++ exprs
  | .literal index | .outputValue index | .outputExpr index => [index]
  | .apply operator deps => operator :: deps
  | _ => []

def relocate (place : Nat → Nat) : Step → Step
  | .value payload slot values exprs =>
      .value payload slot (values.map (Number.mapPosition place))
        (exprs.map (Number.mapPosition place))
  | .literal index => .literal (index.mapPosition place)
  | .apply operator deps =>
      .apply (operator.mapPosition place) (deps.map (Number.mapPosition place))
  | .outputValue index => .outputValue (index.mapPosition place)
  | .outputExpr index => .outputExpr (index.mapPosition place)
  | step => step

def markedValue? : Step → Option Number
  | .outputValue index => some index
  | _ => none

def markedExpr? : Step → Option Number
  | .outputExpr index => some index
  | _ => none

@[simp] theorem isMarker_relocate (place : Nat → Nat) (step : Step) :
    (step.relocate place).isMarker = step.isMarker := by
  cases step <;> rfl

theorem marked_eq_none (plain : step.isMarker = false) :
    step.markedValue? = none ∧ step.markedExpr? = none := by
  cases step with
  | outputValue index => exact absurd plain nofun
  | outputExpr index => exact absurd plain nofun
  | _ => exact ⟨rfl, rfl⟩

theorem markedValue?_mem {index : Number} (marks : step.markedValue? = some index) :
    index ∈ step.references := by
  cases step with
  | outputValue other => exact List.mem_singleton.mpr (Option.some.inj marks).symm
  | _ => exact absurd marks nofun

theorem markedExpr?_mem {index : Number} (marks : step.markedExpr? = some index) :
    index ∈ step.references := by
  cases step with
  | outputExpr other => exact List.mem_singleton.mpr (Option.some.inj marks).symm
  | _ => exact absurd marks nofun

theorem relocate_congr (same : ∀ index ∈ step.references,
    index.mapPosition place = index.mapPosition place') :
    step.relocate place = step.relocate place' := by
  cases step with
  | value payload codec values exprs =>
      have left : values.map (Number.mapPosition place) = values.map (Number.mapPosition place') :=
        List.map_congr_left fun index given => same index (List.mem_append_left _ given)
      have right : exprs.map (Number.mapPosition place) = exprs.map (Number.mapPosition place') :=
        List.map_congr_left fun index given => same index (List.mem_append_right _ given)
      rw [relocate, relocate, left, right]
  | apply operator deps =>
      have others : deps.map (Number.mapPosition place) = deps.map (Number.mapPosition place') :=
        List.map_congr_left fun index given => same index (List.mem_cons_of_mem _ given)
      rw [relocate, relocate, same operator List.mem_cons_self, others]
  | literal index => rw [relocate, relocate, same index List.mem_cons_self]
  | outputValue index => rw [relocate, relocate, same index List.mem_cons_self]
  | outputExpr index => rw [relocate, relocate, same index List.mem_cons_self]
  | _ => rfl

end Step

abbrev Steps := List Step

namespace Steps

variable {steps more : Steps} {step : Step} {position other : Nat}

def rank (steps : Steps) (position : Nat) : Nat :=
  (steps.take position).countP fun step => !step.isMarker

def Kept (steps : Steps) (position : Nat) : Prop :=
  ∃ step, steps[position]? = some step ∧ step.isMarker = false

def Reaches (steps : Steps) (limit : Nat) (index : Number) : Prop :=
  ∃ target < limit, index = .ofNat target ∧ steps.Kept target

def Grounded (steps : Steps) : Prop :=
  ∀ position step, steps[position]? = some step → ∀ index ∈ step.references,
    steps.Reaches position index

/-- The container of some steps without their markers, which become its outputs. -/
def compacted (steps : Steps) : Container where
  version := some Container.currentVersion
  steps := (steps.filter fun step => !step.isMarker).map (Step.relocate (rank steps))
  outputValues := (steps.filterMap Step.markedValue?).map (Number.mapPosition (rank steps))
  outputExprs := (steps.filterMap Step.markedExpr?).map (Number.mapPosition (rank steps))

example : compacted [.leaf "x", .outputExpr 0, .codec "c", .value [] (some 0) [] [],
    .apply 3 [0, 0], .outputExpr 4] =
    ⟨some 1, [.leaf "x", .codec "c", .value [] (some 0) [] [], .apply 2 [0, 0]], [], [0, 3]⟩ := by
  decide

theorem rank_succ (found : steps[position]? = some step) :
    rank steps (position + 1) = rank steps position + if step.isMarker then 0 else 1 := by
  rw [rank, List.take_add_one, found, List.countP_append, rank, Option.toList_some]
  cases marker : step.isMarker <;> simp [marker]

theorem rank_le_rank (ordered : position ≤ other) : rank steps position ≤ rank steps other :=
  (List.take_prefix_take_left ordered).sublist.countP_le

theorem rank_lt_rank (kept : Kept steps position) (ordered : position < other) :
    rank steps position < rank steps other := by
  obtain ⟨step, found, plain⟩ := kept
  calc
    rank steps position < rank steps (position + 1) := by
      rw [rank_succ found, plain]
      exact Nat.lt_succ_self _
    _ ≤ rank steps other := rank_le_rank ordered

theorem strictMonoOn_rank (steps : Steps) :
    StrictMonoOn (rank steps) { position | Kept steps position } :=
  fun _ kept _ _ ordered => rank_lt_rank kept ordered

theorem Kept.lt_length (kept : Kept steps position) : position < steps.length := by
  obtain ⟨step, found, -⟩ := kept
  exact (List.getElem?_eq_some_iff.mp found).choose

theorem Kept.append (kept : Kept steps position) (more : Steps) :
    Kept (steps ++ more) position := by
  have inside := kept.lt_length
  obtain ⟨step, found, plain⟩ := kept
  exact ⟨step, (List.getElem?_append_left inside).trans found, plain⟩

theorem rank_append (inside : position ≤ steps.length) :
    rank (steps ++ more) position = rank steps position := by
  rw [rank, rank, List.take_append_of_le_length inside]

theorem rank_length (steps : Steps) : rank steps steps.length = steps.compacted.steps.length := by
  rw [rank, List.take_length, compacted, List.length_map, List.countP_eq_length_filter]

variable {index : Number}

theorem Reaches.append (reaches : Reaches steps position index) (more : Steps) :
    Reaches (steps ++ more) position index := by
  obtain ⟨target, below, denoted, kept⟩ := reaches
  exact ⟨target, below, denoted, kept.append more⟩

theorem Reaches.mapPosition_append (reaches : Reaches steps steps.length index) (more : Steps) :
    index.mapPosition (rank (steps ++ more)) = index.mapPosition (rank steps) := by
  obtain ⟨target, below, rfl, -⟩ := reaches
  exact congrArg Number.ofNat (rank_append (Nat.le_of_lt below))

theorem Grounded.reaches (grounded : Grounded steps) (listed : step ∈ steps)
    (given : index ∈ step.references) : Reaches steps steps.length index := by
  obtain ⟨position, found⟩ := List.mem_iff_getElem?.mp listed
  obtain ⟨target, below, denoted, kept⟩ := grounded position step found index given
  exact ⟨target, kept.lt_length, denoted, kept⟩

theorem Grounded.push (grounded : Grounded steps)
    (reaches : ∀ index ∈ step.references, Reaches steps steps.length index) :
    Grounded (steps ++ [step]) := by
  intro position other found index given
  by_cases old : position < steps.length
  · rw [List.getElem?_append_left old] at found
    exact (grounded position other found index given).append [step]
  · have last : position = steps.length := by
      have inside := (List.getElem?_eq_some_iff.mp found).choose
      rw [List.length_append, List.length_singleton] at inside
      omega
    rw [last, List.getElem?_concat_length] at found
    cases found
    exact last ▸ (reaches index given).append [_]

theorem Grounded.compacted_append (grounded : Grounded steps) (more : Steps) :
    compacted (steps ++ more) =
      { steps.compacted with
        steps := steps.compacted.steps ++
          (more.filter fun step => !step.isMarker).map (Step.relocate (rank (steps ++ more)))
        outputValues := steps.compacted.outputValues ++
          (more.filterMap Step.markedValue?).map (Number.mapPosition (rank (steps ++ more)))
        outputExprs := steps.compacted.outputExprs ++
          (more.filterMap Step.markedExpr?).map (Number.mapPosition (rank (steps ++ more))) } := by
  have moved :
      (steps.filter fun step => !step.isMarker).map (Step.relocate (rank (steps ++ more))) =
        (steps.filter fun step => !step.isMarker).map (Step.relocate (rank steps)) :=
    List.map_congr_left fun step listed => Step.relocate_congr fun index given =>
      (grounded.reaches (List.mem_filter.mp listed).1 given).mapPosition_append more
  have values :
      (steps.filterMap Step.markedValue?).map (Number.mapPosition (rank (steps ++ more))) =
        (steps.filterMap Step.markedValue?).map (Number.mapPosition (rank steps)) := by
    refine List.map_congr_left fun index named => ?_
    obtain ⟨step, listed, marks⟩ := List.mem_filterMap.mp named
    exact (grounded.reaches listed (Step.markedValue?_mem marks)).mapPosition_append more
  have exprs :
      (steps.filterMap Step.markedExpr?).map (Number.mapPosition (rank (steps ++ more))) =
        (steps.filterMap Step.markedExpr?).map (Number.mapPosition (rank steps)) := by
    refine List.map_congr_left fun index named => ?_
    obtain ⟨step, listed, marks⟩ := List.mem_filterMap.mp named
    exact (grounded.reaches listed (Step.markedExpr?_mem marks)).mapPosition_append more
  simp only [compacted, List.filter_append, List.filterMap_append, List.map_append, moved, values,
    exprs]

end Steps

namespace Decoder

open Steps (rank Kept Reaches Grounded)

variable {decoder after whole part : Decoder} {steps rest : Steps} {position limit : Nat}
  {step : Step} {effect : Effect} {index : Number} {decoded : Decoded}

theorem Run.slot_eq [Extension] {list : List Step} (run : Run decoder list after)
    (old : position < decoder.size) : after.slot position = decoder.slot position := by
  induction run with
  | done decoder => rfl
  | next settles rest ih =>
      have kept := ih (by simp only [size_grow]; omega)
      rw [kept, slot_grow_of_ne (Nat.ne_of_lt old)]

theorem Settles.marked_eq [Extension] (settles : decoder.Settles decoder.size step effect)
    (plain : step.isMarker = false) : (decoder.grow effect).marked = decoder.marked := by
  cases settles with
  | outputValue loaded => exact absurd plain nofun
  | outputExpr loaded => exact absurd plain nofun
  | _ => rfl

theorem Run.marked_eq [Extension] {list : List Step} (run : Run decoder list after)
    (plain : ∀ step ∈ list, step.isMarker = false) : after.marked = decoder.marked := by
  induction run with
  | done decoder => rfl
  | next settles rest ih =>
      rw [ih fun step listed => plain step (List.mem_cons_of_mem _ listed),
        settles.marked_eq (plain _ List.mem_cons_self)]

theorem valueAt_iff (same : ∀ position < limit, Kept steps position →
      whole.slot position = part.slot (rank steps position))
    (reaches : Reaches steps limit index) (v : Value) :
    whole.ValueAt index v ↔ part.ValueAt (index.mapPosition (rank steps)) v := by
  obtain ⟨target, inside, rfl, kept⟩ := reaches
  simp [same target inside kept]

theorem exprAt_iff (same : ∀ position < limit, Kept steps position →
      whole.slot position = part.slot (rank steps position))
    (reaches : Reaches steps limit index) (e : Expr) :
    whole.ExprAt index e ↔ part.ExprAt (index.mapPosition (rank steps)) e := by
  obtain ⟨target, inside, rfl, kept⟩ := reaches
  simp [same target inside kept]

/-- That a decoder has taken the first of some steps, and another one those that are no markers. -/
structure Shadows (steps : Steps) (whole part : Decoder) : Prop where
  options : whole.options = part.options
  lookup : whole.lookup = part.lookup
  codecs : whole.codecs = part.codecs
  size : part.size = rank steps whole.size
  slots : ∀ position < whole.size, Kept steps position →
    whole.slot position = part.slot (rank steps position)

namespace Shadows

theorem start (lookup : CodecLookup) (options : Options) (steps : Steps) :
    Shadows steps (.start lookup options) (.start lookup options) where
  options := rfl
  lookup := rfl
  codecs := rfl
  size := rfl
  slots _ inside := absurd inside (Nat.not_lt_zero _)

theorem loadValue_iff (shadows : Shadows steps whole part)
    (reaches : Reaches steps whole.size index) (v : Value) :
    whole.loadValue whole.size index = .ok v ↔
      part.loadValue part.size (index.mapPosition (rank steps)) = .ok v := by
  simp only [loadValue_size_eq_ok_iff, valueAt_iff shadows.slots reaches]

theorem loadExpr_iff (shadows : Shadows steps whole part)
    (reaches : Reaches steps whole.size index) (e : Expr) :
    whole.loadExpr whole.size index = .ok e ↔
      part.loadExpr part.size (index.mapPosition (rank steps)) = .ok e := by
  simp only [loadExpr_size_eq_ok_iff, exprAt_iff shadows.slots reaches]

theorem loadValues_iff (shadows : Shadows steps whole part) {indices : List Number}
    (reaches : ∀ index ∈ indices, Reaches steps whole.size index) (vs : List Value) :
    indices.mapM (whole.loadValue whole.size) = .ok vs ↔
      (indices.map (Number.mapPosition (rank steps))).mapM (part.loadValue part.size) = .ok vs :=
  mapM_map_eq_ok_iff fun index given => shadows.loadValue_iff (reaches index given)

theorem loadExprs_iff (shadows : Shadows steps whole part) {indices : List Number}
    (reaches : ∀ index ∈ indices, Reaches steps whole.size index) (es : List Expr) :
    indices.mapM (whole.loadExpr whole.size) = .ok es ↔
      (indices.map (Number.mapPosition (rank steps))).mapM (part.loadExpr part.size) = .ok es :=
  mapM_map_eq_ok_iff fun index given => shadows.loadExpr_iff (reaches index given)

theorem applyOperator_iff [Extension] (shadows : Shadows steps whole part) {operator : Number}
    {deps : List Number} (reaches : ∀ index ∈ operator :: deps, Reaches steps whole.size index)
    (e : Expr) : whole.applyOperator whole.size operator deps = .ok e ↔
      part.applyOperator part.size (operator.mapPosition (rank steps))
        (deps.map (Number.mapPosition (rank steps))) = .ok e := by
  have inputs := shadows.loadExprs_iff fun dep listed => reaches dep (List.mem_cons_of_mem _ listed)
  simp only [applyOperator_eq_ok_iff, shadows.loadValue_iff (reaches operator List.mem_cons_self),
    inputs, shadows.options]

theorem settles_iff [Extension] (shadows : Shadows steps whole part)
    (reaches : ∀ index ∈ step.references, Reaches steps whole.size index) :
    whole.Settles whole.size step effect ↔
      part.Settles part.size (step.relocate (rank steps)) effect := by
  have empty (decoder : Decoder) : decoder.slot decoder.size = .empty :=
    slot_of_size_le (Nat.le_refl _)
  have free : (whole.slot whole.size).isFree = (part.slot part.size).isFree := by
    rw [empty, empty]
  rw [← settle_eq_ok_iff, ← settle_eq_ok_iff]
  cases step with
  | codec name => simp only [Step.relocate, settle_codec_eq_ok_iff, empty, shadows.lookup]
  | value payload slot values exprs =>
      have values := shadows.loadValues_iff fun index given =>
        reaches index (List.mem_append_left _ given)
      have exprs := shadows.loadExprs_iff fun index given =>
        reaches index (List.mem_append_right _ given)
      simp only [Step.relocate, settle, annotate_eq_ok_iff, bind_eq_ok_iff, claim_eq_ok_iff, values,
        exprs, decodeValue_congr shadows.codecs, free]
  | apply operator deps =>
      simp only [Step.relocate, settle, annotate_eq_ok_iff, bind_eq_ok_iff, claim_eq_ok_iff,
        shadows.applyOperator_iff reaches, free]
  | leaf key => simp only [Step.relocate, settle, annotate_eq_ok_iff, claim_eq_ok_iff, free]
  | placeholder key => simp only [Step.relocate, settle, annotate_eq_ok_iff, claim_eq_ok_iff, free]
  | literal index =>
      have loads := shadows.loadValue_iff (reaches index List.mem_cons_self)
      simp only [Step.relocate, settle, annotate_eq_ok_iff, bind_eq_ok_iff, claim_eq_ok_iff, loads,
        free]
  | outputValue index =>
      have loads := shadows.loadValue_iff (reaches index List.mem_cons_self)
      simp only [Step.relocate, settle, annotate_eq_ok_iff, bind_eq_ok_iff, loads]
  | outputExpr index =>
      have loads := shadows.loadExpr_iff (reaches index List.mem_cons_self)
      simp only [Step.relocate, settle, annotate_eq_ok_iff, bind_eq_ok_iff, loads]
  | malformed kind => cases kind <;> simp [settle, raise_eq, Step.relocate]

theorem grow (shadows : Shadows steps whole part) (found : steps[whole.size]? = some step)
    (plain : step.isMarker = false) (effect : Effect) :
    Shadows steps (whole.grow effect) (part.grow effect) where
  options := by simp [shadows.options]
  lookup := by simp [shadows.lookup]
  codecs := by
    have same := shadows.codecs
    cases effect <;> simp [Decoder.grow, perform, push, fill, same]
  size := by
    rw [size_grow, size_grow, Steps.rank_succ found, plain, shadows.size]
    rfl
  slots position inside kept := by
    rw [size_grow] at inside
    by_cases here : position = whole.size
    · rw [here, ← shadows.size, slot_grow_last, slot_grow_last]
    · have earlier : position < whole.size := by omega
      have apart : rank steps position ≠ part.size := by
        rw [shadows.size]
        exact Nat.ne_of_lt (Steps.rank_lt_rank kept earlier)
      rw [slot_grow_of_ne here, slot_grow_of_ne apart, shadows.slots position earlier kept]

theorem mark (shadows : Shadows steps whole part) (found : steps[whole.size]? = some step)
    (marker : step.isMarker = true) (unstored : effect.store .empty = .empty)
    (uncoded : ∀ codec, effect ≠ .codec codec) :
    Shadows steps (whole.grow effect) part where
  options := by simp [shadows.options]
  lookup := by simp [shadows.lookup]
  codecs := by
    rw [← shadows.codecs]
    cases effect with
    | codec codec => exact absurd rfl (uncoded codec)
    | _ => rfl
  size := by
    rw [size_grow, Steps.rank_succ found, marker, shadows.size]
    rfl
  slots position inside kept := by
    rw [size_grow] at inside
    have earlier : position ≠ whole.size := by
      rintro rfl
      obtain ⟨other, found', plain⟩ := kept
      rw [Option.some.inj (found'.symm.trans found), marker] at plain
      exact absurd plain nofun
    rw [slot_grow_marker unstored, shadows.slots position (by omega) kept]

variable [Extension]

theorem slots_after (shadows : Shadows steps whole part) {list : List Step}
    (run : Run part list after) (position : Nat) (inside : position < whole.size)
    (kept : Kept steps position) : whole.slot position = after.slot (rank steps position) := by
  have earlier : rank steps position < part.size := by
    rw [shadows.size]
    exact Steps.rank_lt_rank kept inside
  rw [run.slot_eq earlier, shadows.slots position inside kept]

theorem exists_value_iff (shadows : Shadows steps whole part)
    (reaches : Reaches steps whole.size index) {list : List Step} {last : Value → Decoder → Prop} :
    (∃ v, whole.ValueAt index v ∧ ∃ after, Run part list after ∧ last v after) ↔
      ∃ after, Run part list after ∧
        ∃ v, after.ValueAt (index.mapPosition (rank steps)) v ∧ last v after := by
  constructor
  · rintro ⟨v, held, after, run, ended⟩
    exact ⟨after, run, v, (valueAt_iff (shadows.slots_after run) reaches v).mp held, ended⟩
  · rintro ⟨after, run, v, held, ended⟩
    exact ⟨v, (valueAt_iff (shadows.slots_after run) reaches v).mpr held, after, run, ended⟩

theorem exists_expr_iff (shadows : Shadows steps whole part)
    (reaches : Reaches steps whole.size index) {list : List Step} {last : Expr → Decoder → Prop} :
    (∃ e, whole.ExprAt index e ∧ ∃ after, Run part list after ∧ last e after) ↔
      ∃ after, Run part list after ∧
        ∃ e, after.ExprAt (index.mapPosition (rank steps)) e ∧ last e after := by
  constructor
  · rintro ⟨e, held, after, run, ended⟩
    exact ⟨after, run, e, (exprAt_iff (shadows.slots_after run) reaches e).mp held, ended⟩
  · rintro ⟨after, run, e, held, ended⟩
    exact ⟨e, (exprAt_iff (shadows.slots_after run) reaches e).mpr held, after, run, ended⟩

theorem run_iff (grounded : Grounded steps) (shadows : Shadows steps whole part)
    (remaining : steps.drop whole.size = rest) :
    (∃ after, Run whole rest after ∧ decoded = after.marked) ↔
      ∃ after, Run part ((rest.filter fun step => !step.isMarker).map
          (Step.relocate (rank steps))) after ∧
        after.Yields whole.marked
          ((rest.filterMap Step.markedValue?).map (Number.mapPosition (rank steps)))
          ((rest.filterMap Step.markedExpr?).map (Number.mapPosition (rank steps))) decoded := by
  induction rest generalizing whole part with
  | nil => simp
  | cons step rest ih =>
      have found : steps[whole.size]? = some step := by
        rw [← List.head?_drop, remaining]
        rfl
      have later (effect : Effect) : steps.drop (whole.grow effect).size = rest := by
        rw [size_grow, ← List.tail_drop, remaining]
        rfl
      have reaches := grounded whole.size step found
      cases marker : step.isMarker with
      | false =>
          obtain ⟨noValue, noExpr⟩ := Step.marked_eq_none marker
          rw [List.filter_cons_of_pos (by simp [marker]), List.map_cons,
            List.filterMap_cons_none noValue, List.filterMap_cons_none noExpr]
          simp only [run_cons_iff, exists_run_iff, ← shadows.settles_iff reaches]
          refine exists_congr fun effect => and_congr_right fun settles => ?_
          rw [ih (shadows.grow found marker effect) (later effect), settles.marked_eq marker]
      | true =>
          -- only one decoder takes the marker; the other one has what it refers to in the end
          rw [List.filter_cons_of_neg (by simp [marker])]
          cases step with
          | outputValue index =>
              have next (v : Value) : Shadows steps (whole.grow (.outputValue v)) part :=
                shadows.mark found marker rfl nofun
              simp only [run_outputValue_iff, exists_run_iff, ih (next _) (later _),
                List.filterMap_cons, Step.markedValue?, Step.markedExpr?, List.map_cons,
                yields_value_iff]
              exact shadows.exists_value_iff (reaches index List.mem_cons_self)
          | outputExpr index =>
              have next (e : Expr) : Shadows steps (whole.grow (.outputExpr e)) part :=
                shadows.mark found marker rfl nofun
              simp only [run_outputExpr_iff, exists_run_iff, ih (next _) (later _),
                List.filterMap_cons, Step.markedValue?, Step.markedExpr?, List.map_cons,
                yields_expr_iff]
              exact shadows.exists_expr_iff (reaches index List.mem_cons_self)
          | _ => exact absurd marker nofun

end Shadows

end Decoder

theorem Steps.Grounded.decode_iff [Extension] {steps : Steps} (grounded : steps.Grounded)
    (lookup : CodecLookup) (options : Options) (decoded : Decoded) :
    PlacedStep.decodeStream lookup options (PlacedStep.inOrder 0 steps) = .ok decoded ↔
      steps.compacted.decode lookup options = .ok decoded := by
  have start := Decoder.Shadows.start lookup options steps
  rw [PlacedStep.decodeStream_eq_ok_iff, compacted, Container.decode_eq_ok_iff,
    start.run_iff grounded List.drop_zero]
  refine exists_congr fun after => and_congr_right fun run => ?_
  rw [run.marked_eq]
  intro step listed
  obtain ⟨former, kept, rfl⟩ := List.mem_map.mp listed
  rw [Step.isMarker_relocate]
  simpa using (List.mem_filter.mp kept).2

end ExprWire
