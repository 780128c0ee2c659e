import ExprWire.Proofs.Recognition
/-!
Decoders in lockstep. Two decoders are given the same steps but for the keys of leaves and
placeholders, and under different options. They hold the same values and codecs, and expressions
that are alike; besides keys only applications can come out differently. As long as the one accepts
what the other does there, and makes something alike of it, no later step shows the difference, for
no codec looks into an expression.
-/

namespace ExprWire

def Options.application [Extension] (options : Options) (op : Operator) (deps : List Expr) :
    Outcome Expr :=
  if options.safe then Expr.call op deps options.inferAttributes else .ok (.unchecked op deps)

theorem Expr.call_eq_ok_iff [Extension] {op : Operator} {deps : List Expr} {infer : Bool} {e : Expr} :
    call op deps infer = .ok e ↔ op.signature.arity.accepts deps.length = true ∧
      e = .apply op deps (if infer then op.infer (deps.map attributes) else .unknown) := by
  rw [call, Signature.checkCount]
  cases op.signature.arity.accepts deps.length with
  | true =>
      exact ⟨fun called => ⟨rfl, (Except.ok.inj called).symm⟩, fun held => congrArg _ held.2.symm⟩
  | false =>
      constructor
      · intro called
        cases called
      · rintro ⟨accepted, -⟩
        cases accepted

theorem Options.application_eq_ok_iff [Extension] {options : Options} {op : Operator}
    {deps : List Expr} {e : Expr} : options.application op deps = .ok e ↔
      (options.safe = true → op.signature.arity.accepts deps.length = true) ∧
        e = .apply op deps (if options.safe = true ∧ options.inferAttributes = true
          then op.infer (deps.map Expr.attributes) else .unknown) := by
  rw [application]
  cases options.safe with
  | true => simp [Expr.call_eq_ok_iff]
  | false =>
      simp only [Bool.false_eq_true, if_false, false_and, false_implies, true_and]
      exact ⟨fun made => (Except.ok.inj made).symm, fun same => congrArg _ same.symm⟩

def Step.key? : Step → Option String
  | .leaf key | .placeholder key => some key
  | _ => none

structure Likeness (alike : Expr → Expr → Prop) : Prop where
  literal (v : Value) : alike (.literal v) (.literal v)
  leaf (key : String) : alike (.leaf key) (.leaf key)
  placeholder (key : String) : alike (.placeholder key) (.placeholder key)

inductive Step.Alike (alike : Expr → Expr → Prop) : Step → Step → Prop where
  | leaf {key key' : String} (held : alike (.leaf key) (.leaf key')) :
      Alike alike (.leaf key) (.leaf key')
  | placeholder {key key' : String} (held : alike (.placeholder key) (.placeholder key')) :
      Alike alike (.placeholder key) (.placeholder key')
  | unkeyed {step : Step} (unkeyed : step.key? = none) : Alike alike step step

theorem Likeness.steps {alike : Expr → Expr → Prop} (likeness : Likeness alike)
    (steps : List Step) : List.Forall₂ (Step.Alike alike) steps steps := by
  refine List.forall₂_same.mpr fun step _ => ?_
  cases step with
  | leaf key => exact .leaf (likeness.leaf key)
  | placeholder key => exact .placeholder (likeness.placeholder key)
  | _ => exact .unkeyed rfl

theorem map_eq_of_forall₂ {α β : Type} {f : α → β} {xs : List α} {ys : List β}
    (same : List.Forall₂ (fun x y => f x = y) xs ys) : xs.map f = ys := by
  have mapped : List.Forall₂ Eq (xs.map f) ys := List.forall₂_map_left_iff.mpr same
  rwa [List.forall₂_eq_eq_eq] at mapped

/-- That two effects add the same value or codec, or expressions that are alike. -/
inductive Effect.Alike (alike : Expr → Expr → Prop) : Effect → Effect → Prop where
  | value (v : Value) : Alike alike (.value v) (.value v)
  | expr {d e : Expr} (held : alike d e) : Alike alike (.expr d) (.expr e)
  | codec (codec : LoadedCodec) : Alike alike (.codec codec) (.codec codec)
  | outputValue (v : Value) : Alike alike (.outputValue v) (.outputValue v)
  | outputExpr {d e : Expr} (held : alike d e) : Alike alike (.outputExpr d) (.outputExpr e)

namespace Decoder

variable {operators : OperatorRegistry} {alike : Expr → Expr → Prop}
  {decoder left right before after : Decoder} {position limit : Nat} {index : Number}
  {step step' : Step} {steps steps' : List Step} {effect effect' : Effect} {v : Value} {d : Expr}

theorem keeps_grow (effect : Effect) : Keeps decoder (decoder.grow effect) := by
  have opened : decoder.opened decoder.size = decoder.push .empty := if_neg (Nat.lt_irrefl _)
  refine (opened ▸ decoder.keeps_opened decoder.size).trans (keeps_perform (by simp) ?_)
  rw [slot_push_last]
  cases effect <;> first | exact rfl | trivial

theorem Run.keeps [Extension] (run : Run decoder steps after) : Keeps decoder after := by
  induction run with
  | done decoder => exact .refl decoder
  | next settles rest ih => exact (keeps_grow _).trans ih

theorem Keeps.valueAt (keeps : Keeps before after) (held : before.ValueAt index v) :
    after.ValueAt index v := by
  obtain ⟨position, denoted, held⟩ := held
  exact ⟨position, denoted, keeps.values position v held⟩

theorem Keeps.exprAt {e : Expr} (keeps : Keeps before after) (held : before.ExprAt index e) :
    after.ExprAt index e := by
  obtain ⟨position, denoted, held⟩ := held
  exact ⟨position, denoted, keeps.exprs position e held⟩

/-- That two decoders hold the same values and codecs, and expressions that are alike. -/
structure Lockstep (alike : Expr → Expr → Prop) (left right : Decoder) : Prop where
  size : left.size = right.size
  lookup : left.lookup = right.lookup
  codecs : left.codecs = right.codecs
  values : ∀ position, (left.slot position).value = (right.slot position).value
  exprs : ∀ position, Option.Rel alike (left.slot position).expr (right.slot position).expr
  loaded : ∀ position, (left.slot position).codec = (right.slot position).codec
  outputValues : left.outputValues = right.outputValues
  outputExprs : List.Forall₂ alike left.outputExprs right.outputExprs

theorem lockstep_start (alike : Expr → Expr → Prop) (lookup : CodecLookup)
    (options options' : Options) :
    Lockstep alike (.start lookup options) (.start lookup options') where
  size := rfl
  lookup := rfl
  codecs := rfl
  values _ := rfl
  exprs _ := .none
  loaded _ := rfl
  outputValues := rfl
  outputExprs := .nil

namespace Lockstep

variable (lockstep : Lockstep alike left right)
include lockstep

theorem grow (same : Effect.Alike alike effect effect') :
    Lockstep alike (left.grow effect) (right.grow effect') := by
  have stored : (effect.store .empty).value = (effect'.store .empty).value ∧
      Option.Rel alike (effect.store .empty).expr (effect'.store .empty).expr ∧
      (effect.store .empty).codec = (effect'.store .empty).codec := by
    cases same with
    | expr held => exact ⟨rfl, .some held, rfl⟩
    | _ => exact ⟨rfl, .none, rfl⟩
  have slot (position : Nat) :
      ((left.grow effect).slot position).value = ((right.grow effect').slot position).value ∧
      Option.Rel alike ((left.grow effect).slot position).expr
        ((right.grow effect').slot position).expr ∧
      ((left.grow effect).slot position).codec = ((right.grow effect').slot position).codec := by
    by_cases here : position = left.size
    · rw [here, slot_grow_last, lockstep.size, slot_grow_last]
      exact stored
    · rw [slot_grow_of_ne here, slot_grow_of_ne (lockstep.size ▸ here)]
      exact ⟨lockstep.values position, lockstep.exprs position, lockstep.loaded position⟩
  refine {
    size := by rw [size_grow, size_grow, lockstep.size]
    lookup := by rw [lookup_grow, lookup_grow, lockstep.lookup]
    values := fun position => (slot position).1
    exprs := fun position => (slot position).2.1
    loaded := fun position => (slot position).2.2
    codecs := ?codecs
    outputValues := ?outputValues
    outputExprs := ?outputExprs }
  case codecs =>
    cases same with
    | codec codec => exact congrArg (·.push codec) lockstep.codecs
    | _ => exact lockstep.codecs
  case outputValues =>
    cases same with
    | outputValue v => exact congrArg (· ++ [v]) lockstep.outputValues
    | _ => exact lockstep.outputValues
  case outputExprs =>
    cases same with
    | outputExpr held => exact List.rel_append lockstep.outputExprs (.cons held .nil)
    | _ => exact lockstep.outputExprs

theorem isFree (position : Nat) :
    (left.slot position).isFree = (right.slot position).isFree := by
  have exprs := lockstep.exprs position
  rw [Slot.isFree, Slot.isFree, lockstep.values position]
  generalize (left.slot position).expr = expr at exprs
  generalize (right.slot position).expr = expr' at exprs
  cases exprs <;> rfl

theorem loadValue (loaded : left.loadValue limit index = .ok v) :
    right.loadValue limit index = .ok v := by
  rw [loadValue_eq_ok_iff] at loaded ⊢
  obtain ⟨position, denoted, inside, held⟩ := loaded
  exact ⟨position, denoted, inside, (lockstep.values position).symm.trans held⟩

theorem loadValues {indices : List Number} {vs : List Value}
    (loaded : indices.mapM (left.loadValue limit) = .ok vs) :
    indices.mapM (right.loadValue limit) = .ok vs :=
  mapM_eq_ok_iff.mpr ((mapM_eq_ok_iff.mp loaded).imp fun _ _ => lockstep.loadValue)

theorem loadExpr (loaded : left.loadExpr limit index = .ok d) :
    ∃ e, right.loadExpr limit index = .ok e ∧ alike d e := by
  obtain ⟨position, denoted, inside, held⟩ := loadExpr_eq_ok_iff.mp loaded
  have exprs := lockstep.exprs position
  rw [held] at exprs
  cases found : (right.slot position).expr with
  | none =>
      rw [found] at exprs
      cases exprs
  | some e =>
      rw [found] at exprs
      cases exprs with
      | some same => exact ⟨e, loadExpr_eq_ok_iff.mpr ⟨position, denoted, inside, found⟩, same⟩

theorem loadExprs {indices : List Number} {ds : List Expr}
    (loaded : indices.mapM (left.loadExpr limit) = .ok ds) :
    ∃ es, indices.mapM (right.loadExpr limit) = .ok es ∧ List.Forall₂ alike ds es := by
  simp only [mapM_eq_ok_iff] at loaded ⊢
  induction loaded with
  | nil => exact ⟨[], .nil, .nil⟩
  | cons first others ih =>
      obtain ⟨e, found, same⟩ := lockstep.loadExpr first
      obtain ⟨es, found', same'⟩ := ih
      exact ⟨e :: es, .cons found found', .cons same same'⟩

theorem settles [Extension] (literal : ∀ v, alike (.literal v) (.literal v))
    (equipped : Equipped operators left) (settles : left.Settles position step effect)
    (similar : Step.Alike alike step step')
    (applies : ∀ operator deps op ds es d, step = .apply operator deps →
      left.loadValue position operator = .ok (.operator op) → ds.length = deps.length →
      List.Forall₂ alike ds es → left.options.application op ds = .ok d →
      ∃ e, right.options.application op es = .ok e ∧ alike d e) :
    ∃ effect', right.Settles position step' effect' ∧ Effect.Alike alike effect effect' := by
  have free (held : (left.slot position).isFree = true) : (right.slot position).isFree = true :=
    (lockstep.isFree position).symm.trans held
  cases settles with
  | leaf key room =>
      cases similar with
      | leaf held => exact ⟨_, .leaf _ (free room), .expr held⟩
      | unkeyed unkeyed => exact absurd unkeyed nofun
  | placeholder key room =>
      cases similar with
      | placeholder held => exact ⟨_, .placeholder _ (free room), .expr held⟩
      | unkeyed unkeyed => exact absurd unkeyed nofun
  | literal loaded room =>
      cases similar
      exact ⟨_, .literal (lockstep.loadValue loaded) (free room), .expr (literal _)⟩
  | @apply operator deps d applied room =>
      obtain ⟨op, loaded, ds, loaded', made⟩ := applyOperator_eq_ok_iff.mp applied
      obtain ⟨es, found, same⟩ := lockstep.loadExprs loaded'
      have count := (mapM_eq_ok_iff.mp loaded').length_eq
      obtain ⟨e, made', held⟩ := applies operator deps op ds es d rfl loaded count.symm same made
      cases similar
      refine ⟨_, .apply ?_ (free room), .expr held⟩
      exact applyOperator_eq_ok_iff.mpr ⟨op, lockstep.loadValue loaded, es, found, made'⟩
  | @value payload codec values exprs vs ds v loaded loaded' decoded room =>
      obtain ⟨es, found, same⟩ := lockstep.loadExprs loaded'
      have empty : ds.isEmpty = es.isEmpty := by cases same <;> rfl
      have decoded' := equipped.decodeValue_blind empty codec decoded
      rw [decodeValue_congr lockstep.codecs] at decoded'
      cases similar
      exact ⟨_, .value (lockstep.loadValues loaded) found decoded' (free room), .value v⟩
  | codec vacant found =>
      cases similar
      exact ⟨_, .codec ((lockstep.loaded position).symm.trans vacant) (lockstep.lookup ▸ found),
        .codec _⟩
  | outputValue loaded =>
      cases similar
      exact ⟨_, .outputValue (lockstep.loadValue loaded), .outputValue _⟩
  | outputExpr loaded =>
      obtain ⟨e, found, same⟩ := lockstep.loadExpr loaded
      cases similar
      exact ⟨_, .outputExpr found, .outputExpr same⟩

omit lockstep in
theorem run [Extension] (lockstep : Lockstep alike left right)
    (literal : ∀ v, alike (.literal v) (.literal v)) (equipped : Equipped operators left)
    (run : Run left steps after) (similar : List.Forall₂ (Step.Alike alike) steps steps')
    (applies : ∀ operator deps op ds es d, .apply operator deps ∈ steps →
      after.ValueAt operator (.operator op) → ds.length = deps.length →
      List.Forall₂ alike ds es → left.options.application op ds = .ok d →
      ∃ e, right.options.application op es = .ok e ∧ alike d e) :
    ∃ after', Run right steps' after' ∧ Lockstep alike after after' := by
  induction run generalizing right steps' with
  | done decoder =>
      cases similar
      exact ⟨right, .done right, lockstep⟩
  | @next left after step steps effect settles rest ih =>
      obtain ⟨step', others, first, later, rfl⟩ := List.forall₂_cons_left_iff.mp similar
      obtain ⟨effect', settles', same⟩ := lockstep.settles literal equipped settles first (by
        intro operator deps op ds es d here loaded
        have held := (keeps_grow effect).valueAt (loadValue_size_eq_ok_iff.mp loaded)
        exact applies operator deps op ds es d (here ▸ List.mem_cons_self)
          (rest.keeps.valueAt held))
      obtain ⟨after', rest', lockstep'⟩ := ih (lockstep.grow same) (equipped.grow settles) later (by
        intro operator deps op ds es d present held
        rw [options_grow, options_grow]
        exact applies operator deps op ds es d (List.mem_cons_of_mem _ present) held)
      rw [lockstep.size] at settles'
      exact ⟨after', .next settles' rest', lockstep'⟩

theorem valueAt (held : left.ValueAt index v) : right.ValueAt index v := by
  obtain ⟨position, denoted, held⟩ := held
  exact ⟨position, denoted, (lockstep.values position).symm.trans held⟩

theorem yields {outputValues outputExprs : List Number} {decoded : Decoded}
    (yields : left.Yields left.marked outputValues outputExprs decoded) :
    ∃ decoded', right.Yields right.marked outputValues outputExprs decoded' ∧
      decoded.values = decoded'.values ∧ List.Forall₂ alike decoded.exprs decoded'.exprs := by
  obtain ⟨vs, ds, values, exprs, rfl⟩ := yields
  obtain ⟨es, found, same⟩ := lockstep.loadExprs (loadExprs_size_eq_ok_iff.mpr exprs)
  rw [lockstep.size] at found
  refine ⟨_, ⟨vs, es, values.imp fun _ _ => lockstep.valueAt, loadExprs_size_eq_ok_iff.mp found,
    rfl⟩, ?_, ?_⟩
  · exact congrArg (· ++ vs) lockstep.outputValues
  · exact List.rel_append lockstep.outputExprs same

end Lockstep

end Decoder

theorem Container.decode_follows [Extension] {operators : OperatorRegistry}
    {alike : Expr → Expr → Prop}
    {options : Options} (options' : Options) {container : Container} {steps' : List Step}
    {after : Decoder} {decoded : Decoded}
    (similar : List.Forall₂ (Step.Alike alike) container.steps steps')
    (literal : ∀ v, alike (.literal v) (.literal v))
    (current : container.version = some currentVersion)
    (run : Decoder.Run (.start (CodecRegistry.standard operators).lookup options) container.steps
      after)
    (yields : after.Yields after.marked container.outputValues container.outputExprs decoded)
    (applies : ∀ operator deps op ds es d, .apply operator deps ∈ container.steps →
      after.ValueAt operator (.operator op) → ds.length = deps.length →
      List.Forall₂ alike ds es → options.application op ds = .ok d →
      ∃ e, options'.application op es = .ok e ∧ alike d e) :
    ∃ decoded' after',
      Container.decode (CodecRegistry.standard operators).lookup options'
        { container with steps := steps' } = .ok decoded' ∧
      Decoder.Run (.start (CodecRegistry.standard operators).lookup options') steps' after' ∧
      Decoder.Lockstep alike after after' ∧ decoded.values = decoded'.values ∧
      List.Forall₂ alike decoded.exprs decoded'.exprs := by
  obtain ⟨after', run', lockstep⟩ := (Decoder.lockstep_start alike _ options options').run literal
    (Decoder.equipped_start operators options) run similar applies
  obtain ⟨decoded', yields', values, exprs⟩ := lockstep.yields yields
  exact ⟨decoded', after', decode_iff_run.mpr ⟨current, after', run', yields'⟩, run', lockstep,
    values, exprs⟩

end ExprWire
