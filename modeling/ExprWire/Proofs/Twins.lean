import ExprWire.Proofs.Compaction
import ExprWire.Proofs.Encoding
/-!
Encoding with markers and without. Two encoders are given the same values and expressions; one of
them lists the outputs, the other one marks each of them by a step behind its own. From the first
marker on they differ in every position, but without its markers the one has emitted what the other
has.
-/

namespace ExprWire

open Steps (rank Kept Reaches Grounded)

namespace Encoding

variable {α β γ α' β' : Type} {left : Encoding α} {right : Encoding β} {next : α → Encoding α'}
  {next' : β → Encoding β'} {plain marked : Encoder} {good : α → β → Encoder → Encoder → Prop}

/-- That two encodings come to results and encoders that are related, or fail alike. -/
def Parallel (left : Encoding α) (right : Encoding β) (plain marked : Encoder)
    (good : α → β → Encoder → Encoder → Prop) : Prop :=
  match left.run plain, right.run marked with
  | (.ok a, after), (.ok b, after') => good a b after after'
  | (.error problem, _), (.error problem', _) => problem = problem'
  | _, _ => False

theorem Parallel.runs (held : Parallel left right plain marked good) :
    (∃ problem after after', left.run plain = (.error problem, after) ∧
      right.run marked = (.error problem, after')) ∨
    ∃ a b after after', left.run plain = (.ok a, after) ∧ right.run marked = (.ok b, after') ∧
      good a b after after' := by
  unfold Parallel at held
  cases ran : left.run plain with
  | mk result after =>
      cases ran' : right.run marked with
      | mk result' after' =>
          rw [ran, ran'] at held
          cases result with
          | error problem =>
              cases result' with
              | error problem' => exact .inl ⟨problem, after, after', rfl, held ▸ rfl⟩
              | ok b => exact absurd held id
          | ok a =>
              cases result' with
              | error problem => exact absurd held id
              | ok b => exact .inr ⟨a, b, after, after', rfl, rfl, held⟩

theorem parallel_bind {good' : α' → β' → Encoder → Encoder → Prop}
    (first : Parallel left right plain marked good)
    (rest : ∀ a b after after', good a b after after' →
      Parallel (next a) (next' b) after after' good') :
    Parallel (left >>= next) (right >>= next') plain marked good' := by
  have opened : (left >>= next).run plain =
      ExceptT.bindCont next (left.run plain).1 (left.run plain).2 := rfl
  have opened' : (right >>= next').run marked =
      ExceptT.bindCont next' (right.run marked).1 (right.run marked).2 := rfl
  rw [Parallel, opened, opened']
  rcases first.runs with
    ⟨problem, after, after', ran, ran'⟩ | ⟨a, b, after, after', ran, ran', known⟩
  · rw [ran, ran']
    exact rfl
  · rw [ran, ran']
    exact rest a b after after' known

theorem parallel_mono {good' : α → β → Encoder → Encoder → Prop}
    (held : Parallel left right plain marked good)
    (better : ∀ a b after after', good a b after after' → good' a b after after') :
    Parallel left right plain marked good' := by
  rw [Parallel]
  rcases held.runs with
    ⟨problem, after, after', ran, ran'⟩ | ⟨a, b, after, after', ran, ran', known⟩
  · rw [ran, ran']
  · rw [ran, ran']
    exact better a b after after' known

theorem parallel_return {f : α → γ} {good' : γ → β → Encoder → Encoder → Prop}
    (held : Parallel left right plain marked good)
    (better : ∀ a b after after', good a b after after' → good' (f a) b after after') :
    Parallel (do return f (← left)) right plain marked good' := by
  have same : right >>= pure = right := bind_pure right
  rw [← same]
  exact parallel_bind held better

theorem parallel_outcome {outcome : Outcome γ} {next : γ → Encoding α} {next' : γ → Encoding β}
    (success : ∀ c, Parallel (next c) (next' c) plain marked good) :
    Parallel (do next (← outcome)) (do next' (← outcome)) plain marked good := by
  cases outcome with
  | ok c => exact success c
  | error problem => exact rfl

theorem parallel_get {next : Encoder → Encoding α} {next' : Encoder → Encoding β}
    (held : Parallel (next plain) (next' marked) plain marked good) :
    Parallel (get >>= next) (get >>= next') plain marked good := held

theorem parallel_noting (note : Note) (held : Parallel left right plain marked good) :
    Parallel (noting note left) (noting note right) plain marked good := by
  have opened : (noting note left).run plain =
      (annotate note (left.run plain).1, (left.run plain).2) := rfl
  have opened' : (noting note right).run marked =
      (annotate note (right.run marked).1, (right.run marked).2) := rfl
  rw [Parallel, opened, opened']
  rcases held.runs with
    ⟨problem, after, after', ran, ran'⟩ | ⟨a, b, after, after', ran, ran', known⟩
  · rw [ran, ran']
    exact rfl
  · rw [ran, ran']
    exact known

end Encoding

namespace Encoder

variable {steps more : Steps} {step : Step} {outputs outputs' : List Nat} {plain marked : Encoder}
  {place position : Nat}

/-- That a position moves to a place when the markers among some steps are left out. -/
def Moves (place position : Nat) (steps : Steps) : Prop :=
  Kept steps position ∧ place = rank steps position

def MovesAll (places positions : List Nat) (steps : Steps) : Prop :=
  List.Forall₂ (fun place position => Moves place position steps) places positions

/-- That a table of positions is another one as it is without markers. -/
structure Moved (steps : Steps) (plain marked : Std.TreeMap Fingerprint Nat) : Prop where
  kept : ∀ (print : Fingerprint) position, marked[print]? = some position → Kept steps position
  ranks : ∀ print : Fingerprint, plain[print]? = marked[print]?.map (rank steps)

/-- That one encoder has emitted some steps, and another one the same without markers, and has named
the outputs at some positions. -/
structure Twins (steps : Steps) (outputs outputs' : List Nat) (plain marked : Encoder) : Prop where
  emitted : marked.steps.toList = steps
  grounded : Grounded steps
  compacted : steps.compacted = ⟨some Container.currentVersion, plain.steps.toList,
    outputs.map Number.ofNat, outputs'.map Number.ofNat⟩
  codecs : plain.codecs = marked.codecs
  values : Moved steps plain.values marked.values
  exprs : Moved steps plain.exprs marked.exprs

theorem Moves.append (moves : Moves place position steps) (more : Steps) :
    Moves place position (steps ++ more) := by
  obtain ⟨kept, moved⟩ := moves
  exact ⟨kept.append more, moved.trans (Steps.rank_append (Nat.le_of_lt kept.lt_length)).symm⟩

theorem Moves.reaches (moves : Moves place position steps) :
    Reaches steps steps.length (.ofNat position) :=
  ⟨position, moves.1.lt_length, rfl, moves.1⟩

theorem Moves.eq (moves : Moves place position steps) :
    Number.ofNat place = (Number.ofNat position).mapPosition (rank steps) :=
  congrArg Number.ofNat moves.2

theorem MovesAll.map_eq {places positions : List Nat} (moves : MovesAll places positions steps) :
    places.map Number.ofNat =
      (positions.map Number.ofNat).map (Number.mapPosition (rank steps)) := by
  unfold MovesAll at moves
  induction moves with
  | nil => rfl
  | cons first others ih => rw [List.map_cons, List.map_cons, List.map_cons, ← ih, first.eq]

theorem MovesAll.reaches {places positions : List Nat} (moves : MovesAll places positions steps) :
    ∀ index ∈ positions.map Number.ofNat, Reaches steps steps.length index := by
  unfold MovesAll at moves
  induction moves with
  | nil => exact fun _ listed => absurd listed List.not_mem_nil
  | cons first others ih =>
      intro index listed
      rw [List.map_cons] at listed
      cases List.mem_cons.mp listed with
      | inl here => exact here ▸ first.reaches
      | inr later => exact ih index later

namespace Moved

variable {table table' : Std.TreeMap Fingerprint Nat}

theorem append (moved : Moved steps table table') (more : Steps) :
    Moved (steps ++ more) table table' where
  kept print position found := (moved.kept print position found).append more
  ranks print := by
    rw [moved.ranks]
    cases found : table'[print]? with
    | none => rfl
    | some position =>
        have inside := (moved.kept print position found).lt_length
        exact congrArg some (Steps.rank_append (Nat.le_of_lt inside)).symm

theorem insert (moved : Moved steps table table') (moves : Moves place position steps)
    (key : Fingerprint) : Moved steps (table.insert key place) (table'.insert key position) where
  kept print other found := by
    rw [Std.TreeMap.getElem?_insert] at found
    split at found
    · exact Option.some.inj found ▸ moves.1
    · exact moved.kept print other found
  ranks print := by
    rw [Std.TreeMap.getElem?_insert, Std.TreeMap.getElem?_insert]
    split
    · exact congrArg some moves.2
    · exact moved.ranks print

theorem moves (moved : Moved steps table table') {key : Fingerprint}
    (found : table'[key]? = some position) : Moves (rank steps position) position steps :=
  ⟨moved.kept key position found, rfl⟩

end Moved

namespace Twins

theorem start : Twins [] [] [] .empty .empty where
  emitted := rfl
  grounded _ _ found := absurd found nofun
  compacted := rfl
  codecs := rfl
  values := ⟨fun _ _ found => by simp [Encoder.empty] at found, fun _ => by simp [Encoder.empty]⟩
  exprs := ⟨fun _ _ found => by simp [Encoder.empty] at found, fun _ => by simp [Encoder.empty]⟩

theorem size_eq (twins : Twins steps outputs outputs' plain marked) :
    marked.steps.size = steps.length ∧ plain.steps.size = rank steps steps.length := by
  rw [Steps.rank_length, twins.compacted, ← twins.emitted]
  exact ⟨rfl, rfl⟩

theorem push (twins : Twins steps outputs outputs' plain marked) (unmarked : step.isMarker = false)
    (reaches : ∀ index ∈ step.references, Reaches steps steps.length index) :
    Twins (steps ++ [step]) outputs outputs'
      { plain with steps := plain.steps.push (step.relocate (rank steps)) }
      { marked with steps := marked.steps.push step } where
  emitted := by rw [Array.toList_push, twins.emitted]
  grounded := twins.grounded.push reaches
  compacted := by
    obtain ⟨noValue, noExpr⟩ := Step.marked_eq_none unmarked
    have relocated := Step.relocate_congr fun index given =>
      (reaches index given).mapPosition_append [step]
    rw [twins.grounded.compacted_append, twins.compacted]
    simp [unmarked, noValue, noExpr, relocated]
  codecs := twins.codecs
  values := twins.values.append [step]
  exprs := twins.exprs.append [step]

theorem push_value (twins : Twins steps outputs outputs' plain marked)
    (moves : Moves place position steps) :
    Twins (steps ++ [.outputValue position]) (outputs ++ [place]) outputs' plain
      { marked with steps := marked.steps.push (.outputValue position) } where
  emitted := by rw [Array.toList_push, twins.emitted]
  grounded := twins.grounded.push fun index given =>
    List.mem_singleton.mp given ▸ moves.reaches
  compacted := by
    have moved := (moves.append [.outputValue position]).eq
    rw [twins.grounded.compacted_append, twins.compacted]
    simp [Step.isMarker, Step.markedValue?, Step.markedExpr?, moved]
  codecs := twins.codecs
  values := twins.values.append _
  exprs := twins.exprs.append _

theorem push_expr (twins : Twins steps outputs outputs' plain marked)
    (moves : Moves place position steps) :
    Twins (steps ++ [.outputExpr position]) outputs (outputs' ++ [place]) plain
      { marked with steps := marked.steps.push (.outputExpr position) } where
  emitted := by rw [Array.toList_push, twins.emitted]
  grounded := twins.grounded.push fun index given =>
    List.mem_singleton.mp given ▸ moves.reaches
  compacted := by
    have moved := (moves.append [.outputExpr position]).eq
    rw [twins.grounded.compacted_append, twins.compacted]
    simp [Step.isMarker, Step.markedValue?, Step.markedExpr?, moved]
  codecs := twins.codecs
  values := twins.values.append _
  exprs := twins.exprs.append _

end Twins

end Encoder

namespace Encoding

open Encoder (Moves MovesAll Twins)

variable {α β γ α' β' : Type} {left : Encoding α} {right : Encoding β} {next : α → Encoding α'}
  {next' : β → Encoding β'} {steps : Steps} {held : α → β → Steps → Prop}
  {held' : α' → β' → Steps → Prop} {encode : ValueEncoder} {outputs outputs' : List Nat}
  {plain marked : Encoder}

/-- That twins stay twins, with something that holds of the results and of the steps by then. -/
def Matches (left : Encoding α) (right : Encoding β) (steps : Steps)
    (held : α → β → Steps → Prop) : Prop :=
  ∀ outputs outputs' plain marked, Twins steps outputs outputs' plain marked →
    Parallel left right plain marked
      fun a b after after' => ∃ more, Twins (steps ++ more) outputs outputs' after after' ∧
        held a b (steps ++ more)

theorem Matches.parallel (matched : Matches left right steps held)
    (twins : Twins steps outputs outputs' plain marked) :
    Parallel left right plain marked fun a b after after' =>
      ∃ more, Twins (steps ++ more) outputs outputs' after after' ∧ held a b (steps ++ more) :=
  matched outputs outputs' plain marked twins

theorem matches_pure {a : α} {b : β} (known : held a b steps) :
    Matches (pure a) (pure b) steps held := by
  intro outputs outputs' plain marked twins
  exact ⟨[], by rwa [List.append_nil], by rwa [List.append_nil]⟩

theorem matches_bind (first : Matches left right steps held)
    (rest : ∀ a b more, held a b (steps ++ more) →
      Matches (next a) (next' b) (steps ++ more) held') :
    Matches (left >>= next) (right >>= next') steps held' := by
  intro outputs outputs' plain marked twins
  refine parallel_bind (first.parallel twins) fun a b after after' ended => ?_
  obtain ⟨more, twins, known⟩ := ended
  refine parallel_mono ((rest a b more known).parallel twins) fun c d after after' ended => ?_
  obtain ⟨later, twins, known⟩ := ended
  rw [List.append_assoc] at twins known
  exact ⟨more ++ later, twins, known⟩

theorem matches_outcome {outcome : Outcome γ} {next : γ → Encoding α} {next' : γ → Encoding β}
    (success : ∀ c, Matches (next c) (next' c) steps held) :
    Matches (do next (← outcome)) (do next' (← outcome)) steps held :=
  fun _ _ _ _ twins => parallel_outcome fun c => (success c).parallel twins

theorem matches_emit {step relocated : Step} (moved : relocated = step.relocate (rank steps))
    (unmarked : step.isMarker = false)
    (reaches : ∀ index ∈ step.references, Reaches steps steps.length index) :
    Matches (emit relocated) (emit step) steps Moves := by
  subst moved
  intro outputs outputs' plain marked twins
  refine ⟨[step], twins.push unmarked reaches, ?_, ?_⟩
  · refine ⟨step, ?_, unmarked⟩
    rw [twins.size_eq.1]
    exact List.getElem?_concat_length
  · rw [twins.size_eq.1, twins.size_eq.2, Steps.rank_append (Nat.le_refl _)]

theorem matches_declare (name : String) :
    Matches (declare name) (declare name) steps fun slot slot' _ => slot = slot' := by
  intro outputs outputs' plain marked twins
  refine parallel_get ?_
  rw [twins.codecs]
  cases marked.codecs.idxOf? name with
  | some slot => exact ⟨[], by rwa [List.append_nil], rfl⟩
  | none =>
      have emits : Matches (emit (.codec name)) (emit (.codec name)) steps Moves :=
        matches_emit rfl rfl nofun
      refine parallel_bind (emits.parallel twins) fun place position after after' ended => ?_
      obtain ⟨more, twins', -⟩ := ended
      refine ⟨more, { twins' with codecs := ?_ }, rfl⟩
      exact congrArg (· ++ [name]) twins'.codecs

theorem matches_declareFor (recipe : Recipe) :
    Matches (declareFor recipe) (declareFor recipe) steps fun slot slot' _ => slot = slot' := by
  obtain ⟨codec, nested, payload⟩ := recipe
  cases codec with
  | none => exact matches_pure rfl
  | some name =>
      exact matches_bind (matches_declare name) fun slot slot' more same =>
        matches_pure (congrArg (fun slot => some (Number.ofNat slot)) same)

theorem matches_follow (recipe : Recipe) {fields : Encoding (List Nat)}
    (inputs : ∀ steps, Matches fields fields steps MovesAll) :
    Matches (follow recipe fields) (follow recipe fields) steps
      fun content content' steps => content.1 = content'.1 ∧ content.2.1 = content'.2.1 ∧
        MovesAll content.2.2 content'.2.2 steps := by
  rw [follow_eq]
  refine matches_bind (matches_declareFor recipe) fun slot slot' more same => ?_
  have nested : Matches (if recipe.fields then fields else pure [])
      (if recipe.fields then fields else pure []) (steps ++ more) MovesAll := by
    split
    · exact inputs _
    · exact matches_pure List.Forall₂.nil
  refine matches_bind nested fun places positions later moves => ?_
  exact matches_outcome fun payload => matches_pure ⟨rfl, same, moves⟩

def storeValue (v : Value) (content : Bytes × Option Number × List Nat) : Encoding Nat := do
  let position ← emit (.value content.1 content.2.1 (content.2.2.map Number.ofNat) [])
  modify fun encoder => { encoder with values := encoder.values.insert v.fingerprint position }
  return position

theorem matches_storeValue (v : Value) {payload : Bytes} {slot : Option Number}
    {places positions : List Nat} (moves : MovesAll places positions steps) :
    Matches (storeValue v (payload, slot, places)) (storeValue v (payload, slot, positions))
      steps Moves := by
  intro outputs outputs' plain marked twins
  have reaches : ∀ index ∈ (Step.value payload slot (positions.map Number.ofNat) []).references,
      Reaches steps steps.length index := by
    rw [Step.references, List.append_nil]
    exact moves.reaches
  have moved : Step.value payload slot (places.map Number.ofNat) [] =
      (Step.value payload slot (positions.map Number.ofNat) []).relocate (rank steps) := by
    rw [Step.relocate, ← moves.map_eq]
    rfl
  refine parallel_bind ((matches_emit moved rfl reaches).parallel twins) ?_
  intro place position after after' ended
  obtain ⟨more, twins, moves⟩ := ended
  exact ⟨more, { twins with values := twins.values.insert moves v.fingerprint }, moves⟩

theorem matches_valueOnce (v : Value) {fields : Encoding (List Nat)}
    (inputs : ∀ steps, Matches fields fields steps MovesAll) :
    Matches (valueOnce encode v fields) (valueOnce encode v fields) steps Moves := by
  intro outputs outputs' plain marked twins
  refine parallel_get ?_
  rw [twins.values.ranks]
  cases known : marked.values[v.fingerprint]? with
  | some position => exact (matches_pure (twins.values.moves known)).parallel twins
  | none =>
      have stored (recipe : Recipe) : Matches (follow recipe fields >>= storeValue v)
          (follow recipe fields >>= storeValue v) steps Moves := by
        refine matches_bind (matches_follow recipe inputs) fun content content' more ended => ?_
        obtain ⟨payload, slot, places⟩ := content
        obtain ⟨payload', slot', positions⟩ := content'
        obtain ⟨rfl, rfl, moves⟩ := ended
        exact matches_storeValue v moves
      exact parallel_outcome fun recipe => (stored recipe).parallel twins

theorem matches_values {vs : List Value}
    (single : ∀ v ∈ vs, ∀ steps, Matches (value encode v) (value encode v) steps Moves)
    (steps : Steps) : Matches (values encode vs) (values encode vs) steps MovesAll := by
  induction vs generalizing steps with
  | nil => exact matches_pure List.Forall₂.nil
  | cons v vs ih =>
      refine matches_bind (single v List.mem_cons_self steps) fun place position more moves => ?_
      refine matches_bind (ih (fun u listed => single u (List.mem_cons_of_mem _ listed)) _)
        fun places positions later others => ?_
      exact matches_pure (List.Forall₂.cons (moves.append later) others)

theorem matches_value (v : Value) (steps : Steps) :
    Matches (value encode v) (value encode v) steps Moves := by
  induction v using Value.byFields generalizing steps with
  | step v ih =>
      rw [value_eq]
      refine matches_valueOnce v fun steps => ?_
      cases v with
      | tuple fields => exact matches_values ih steps
      | _ => exact matches_pure List.Forall₂.nil

theorem matches_find (e : Expr) : Matches (find e) (find e) steps Moves := by
  intro outputs outputs' plain marked twins
  refine parallel_get ?_
  rw [twins.exprs.ranks]
  cases known : marked.exprs[e.fingerprint]? with
  | none => exact rfl
  | some position => exact (matches_pure (twins.exprs.moves known)).parallel twins

theorem matches_finds (deps : List Expr) (steps : Steps) :
    Matches (deps.mapM find) (deps.mapM find) steps MovesAll := by
  induction deps generalizing steps with
  | nil => exact matches_pure List.Forall₂.nil
  | cons dep deps ih =>
      rw [List.mapM_cons]
      refine matches_bind (matches_find dep) fun place position more moves => ?_
      refine matches_bind (ih _) fun places positions later others => ?_
      exact matches_pure (List.Forall₂.cons (moves.append later) others)

theorem matches_node (e : Expr) : Matches (node encode e) (node encode e) steps Moves := by
  cases e with
  | leaf key => exact matches_emit rfl rfl nofun
  | placeholder key => exact matches_emit rfl rfl nofun
  | literal v =>
      refine matches_bind (matches_value v steps) fun place position more moves => ?_
      refine matches_emit (congrArg Step.literal moves.eq) rfl fun index given => ?_
      exact List.mem_singleton.mp given ▸ moves.reaches
  | apply op deps attributes =>
      refine matches_bind (matches_value (.operator op) steps) fun place position more moves => ?_
      refine matches_bind (matches_finds deps _) fun places positions later others => ?_
      refine matches_emit ?_ rfl fun index given => ?_
      · rw [Step.relocate, ← others.map_eq, ← (moves.append later).eq]
      · cases List.mem_cons.mp given with
        | inl operator => exact operator ▸ (moves.append later).reaches
        | inr input => exact others.reaches index input

theorem matches_visit (e : Expr) (steps : Steps) :
    Matches (visit encode e) (visit encode e) steps fun _ _ _ => True := by
  intro outputs outputs' plain marked twins
  refine parallel_get ?_
  rw [Std.TreeMap.contains_eq_isSome_getElem?, Std.TreeMap.contains_eq_isSome_getElem?,
    twins.exprs.ranks, Option.isSome_map]
  cases marked.exprs[e.fingerprint]? with
  | some position => exact ⟨[], by rwa [List.append_nil], trivial⟩
  | none =>
      refine parallel_bind ((matches_node e).parallel twins) fun place position _ _ ended => ?_
      obtain ⟨more, twins, moves⟩ := ended
      exact ⟨more, { twins with exprs := twins.exprs.insert moves e.fingerprint }, trivial⟩

theorem matches_visits (es : List Expr) (steps : Steps) :
    Matches (es.forM (visit encode)) (es.forM (visit encode)) steps fun _ _ _ => True := by
  induction es generalizing steps with
  | nil => exact matches_pure trivial
  | cons e es ih => exact matches_bind (matches_visit e steps) fun _ _ more _ => ih _

theorem matches_expr (root : Expr) (steps : Steps) :
    Matches (expr encode root) (expr encode root) steps Moves := by
  intro outputs outputs' plain marked twins
  refine parallel_get ?_
  rw [twins.exprs.ranks]
  cases known : marked.exprs[root.fingerprint]? with
  | some position => exact (matches_pure (twins.exprs.moves known)).parallel twins
  | none =>
      have found : Matches (root.postOrder.forM (visit encode) >>= fun _ => find root)
          (root.postOrder.forM (visit encode) >>= fun _ => find root) steps Moves :=
        matches_bind (matches_visits root.postOrder steps) fun _ _ _ _ => matches_find root
      exact found.parallel twins

theorem parallel_values (vs : List Value) (index : Nat)
    (twins : Twins steps outputs outputs' plain marked) :
    Parallel (rootValues encode index vs) (markValues encode index vs) plain marked
      fun places _ after after' =>
        ∃ steps, Twins steps (outputs ++ places) outputs' after after' := by
  induction vs generalizing index steps outputs plain marked with
  | nil => exact ⟨steps, by rwa [List.append_nil]⟩
  | cons v vs ih =>
      refine parallel_bind (parallel_noting _ ((matches_value v steps).parallel twins)) ?_
      intro place position after after' ended
      obtain ⟨more, twins, moves⟩ := ended
      -- the marker is a step of the one encoder, and an output of the other one
      have rest := ih (index + 1) (twins.push_value moves)
      refine parallel_return rest fun places _ after after' ended => ?_
      obtain ⟨steps, twins⟩ := ended
      exact ⟨steps, by rwa [List.append_assoc] at twins⟩

theorem parallel_exprs (es : List Expr) (index : Nat)
    (twins : Twins steps outputs outputs' plain marked) :
    Parallel (rootExprs encode index es) (markExprs encode index es) plain marked
      fun places _ after after' =>
        ∃ steps, Twins steps outputs (outputs' ++ places) after after' := by
  induction es generalizing index steps outputs' plain marked with
  | nil => exact ⟨steps, by rwa [List.append_nil]⟩
  | cons e es ih =>
      refine parallel_bind (parallel_noting _ ((matches_expr e steps).parallel twins)) ?_
      intro place position after after' ended
      obtain ⟨more, twins, moves⟩ := ended
      have rest := ih (index + 1) (twins.push_expr moves)
      refine parallel_return rest fun places _ after after' ended => ?_
      obtain ⟨steps, twins⟩ := ended
      exact ⟨steps, by rwa [List.append_assoc] at twins⟩

theorem parallel_roots (encode : ValueEncoder) (vs : List Value) (es : List Expr) :
    Parallel (do
        let outputValues ← rootValues encode 0 vs
        let outputExprs ← rootExprs encode 0 es
        return (outputValues, outputExprs))
      (do
        markValues encode 0 vs
        markExprs encode 0 es) .empty .empty
      fun outputs _ after after' => ∃ steps, Twins steps outputs.1 outputs.2 after after' := by
  refine parallel_bind (parallel_values vs 0 .start) fun places _ middle middle' ended => ?_
  obtain ⟨steps, twins⟩ := ended
  exact parallel_return (parallel_exprs es 0 twins) fun places' _ after after' ended => ended

end Encoding

/-- Encoding a whole container and encoding a stream agree. Either both fail alike, or the stream is
made of steps that follow each other without a gap, each of which refers to earlier steps only and
to no markers, and the container is that of the steps without their markers: the others keep their
order, and the markers are listed as outputs. To decode the one comes to the same as to decode the
other. -/
theorem encode_matches_encodeStream [Extension] (encode : ValueEncoder) (vs : List Value)
    (es : List Expr) :
    (∃ problem, Container.encode encode vs es = .error problem ∧
      PlacedStep.encodeStream encode vs es = .error problem) ∨
    ∃ steps, PlacedStep.encodeStream encode vs es = .ok (PlacedStep.inOrder 0 steps) ∧
      Container.encode encode vs es = .ok (Steps.compacted steps) ∧
      StrictMonoOn (rank steps) { position | Kept steps position } ∧ Grounded steps ∧
      ∀ lookup options decoded,
        PlacedStep.decodeStream lookup options (PlacedStep.inOrder 0 steps) = .ok decoded ↔
          (Steps.compacted steps).decode lookup options = .ok decoded := by
  simp only [Container.encode, PlacedStep.encodeStream]
  rcases (Encoding.parallel_roots encode vs es).runs with
    ⟨problem, after, after', ran, ran'⟩ | ⟨outputs, done, after, after', ran, ran', steps, twins⟩
  · rw [ran, ran']
    exact .inl ⟨problem, rfl, rfl⟩
  · rw [ran, ran']
    refine .inr ⟨steps, ?_, ?_, Steps.strictMonoOn_rank steps, twins.grounded,
      twins.grounded.decode_iff⟩
    · exact congrArg (fun steps => Except.ok (PlacedStep.inOrder 0 steps)) twins.emitted
    · exact congrArg Except.ok twins.compacted.symm

end ExprWire
