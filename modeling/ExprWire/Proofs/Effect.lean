import ExprWire.Proofs.Slots
/-!
What a step does to a decoder. A step that is accepted has one effect, which is settled before
anything is changed. It depends on the values and expressions below the step's position, on the
codecs loaded so far, and on whether the position is still free; so it is the same for all decoders
that agree on these.
-/

namespace ExprWire

/-- What an accepted step adds. -/
inductive Effect where
  | value (v : Value)
  | expr (e : Expr)
  | codec (codec : LoadedCodec)
  | outputValue (v : Value)
  | outputExpr (e : Expr)

namespace Effect

def store (slot : Slot) : Effect → Slot
  | .value v => { slot with value := v }
  | .expr e => { slot with expr := e }
  | .codec loaded => { slot with codec := loaded }
  | .outputValue _ | .outputExpr _ => slot

def Fits (slot : Slot) : Effect → Prop
  | .value _ | .expr _ => slot.isFree = true
  | .codec _ => slot.codec = none
  | .outputValue _ | .outputExpr _ => True

theorem Fits.keeps {slot : Slot} {effect : Effect} (fits : effect.Fits slot) :
    (∀ v, slot.value = some v → (effect.store slot).value = some v) ∧
    (∀ e, slot.expr = some e → (effect.store slot).expr = some e) ∧
    ∀ codec, slot.codec = some codec → (effect.store slot).codec = some codec := by
  cases effect <;> simp_all [Fits, store, Slot.isFree]

end Effect

namespace Decoder

variable {decoder : Decoder} {position other : Nat} {step : Step} {effect : Effect}

def perform (decoder : Decoder) (position : Nat) (effect : Effect) : Decoder :=
  let stored := decoder.fill position (effect.store (decoder.slot position))
  match effect with
  | .value _ | .expr _ => stored
  | .codec codec => { stored with codecs := decoder.codecs.push codec }
  | .outputValue v => { decoder with outputValues := decoder.outputValues ++ [v] }
  | .outputExpr e => { decoder with outputExprs := decoder.outputExprs ++ [e] }

@[simp] theorem size_perform (effect : Effect) :
    (decoder.perform position effect).size = decoder.size := by
  cases effect with
  | outputValue v => rfl
  | outputExpr e => rfl
  | _ => exact size_fill _

theorem slot_perform_self (effect : Effect) (inside : position < decoder.size) :
    (decoder.perform position effect).slot position = effect.store (decoder.slot position) := by
  cases effect with
  | outputValue v => rfl
  | outputExpr e => rfl
  | _ => exact slot_fill_self _ inside

theorem slot_perform_of_ne (apart : other ≠ position) :
    (decoder.perform position effect).slot other = decoder.slot other := by
  cases effect with
  | outputValue v => rfl
  | outputExpr e => rfl
  | _ => exact slot_fill_of_ne _ apart

@[simp] theorem failed_perform (effect : Effect) :
    (decoder.perform position effect).failed = decoder.failed := by
  cases effect <;> rfl

def claim (decoder : Decoder) (position : Nat) (collision : Cause) (effect : Effect) :
    Outcome Effect :=
  if (decoder.slot position).isFree then .ok effect else raise collision

def settle [Extension] (decoder : Decoder) (position : Nat) (step : Step) : Outcome Effect :=
  let noted := annotate (α := Effect) (.ofStepType step.typeName)
  match step with
  | .literal index => noted do
      let v ← decoder.loadValue position index
      decoder.claim position .exprCollision (.expr (.literal v))
  | .leaf key => noted (decoder.claim position .exprCollision (.expr (.leaf key)))
  | .placeholder key => noted (decoder.claim position .exprCollision (.expr (.placeholder key)))
  | .apply operator deps => noted do
      let e ← decoder.applyOperator position operator deps
      decoder.claim position .exprCollision (.expr e)
  | .value payload codec values exprs => noted do
      let values ← values.mapM (decoder.loadValue position)
      let exprs ← exprs.mapM (decoder.loadExpr position)
      let v ← decoder.decodeValue codec payload values exprs
      decoder.claim position .valueCollision (.value v)
  | .codec name => noted do
      if (decoder.slot position).codec.isSome then raise .codecCollision
      return .codec ⟨name, ← decoder.lookup name⟩
  | .outputValue index => noted do return .outputValue (← decoder.loadValue position index)
  | .outputExpr index => noted do return .outputExpr (← decoder.loadExpr position index)
  | .malformed none => raise .missingStepType
  | .malformed (some kind) => raise (.unexpectedStepType kind)

theorem storeValue_eq (decoder : Decoder) (position : Nat) (v : Value) :
    decoder.storeValue position v =
      (decoder.claim position .valueCollision (.value v)).map (decoder.perform position) := by
  rw [storeValue, claim]
  by_cases free : (decoder.slot position).isFree = true
  · rw [if_pos free, if_pos free]
    rfl
  · rw [if_neg free, if_neg free]
    rfl

theorem storeExpr_eq (decoder : Decoder) (position : Nat) (e : Expr) :
    decoder.storeExpr position e =
      (decoder.claim position .exprCollision (.expr e)).map (decoder.perform position) := by
  rw [storeExpr, claim]
  by_cases free : (decoder.slot position).isFree = true
  · rw [if_pos free, if_pos free]
    rfl
  · rw [if_neg free, if_neg free]
    rfl

theorem accept_eq [Extension] (decoder : Decoder) (position : Nat) (step : Step) :
    decoder.accept position step =
      (decoder.settle position step).map (decoder.perform position) := by
  cases step with
  | literal index =>
      simp only [accept, settle, storeExpr_eq, bind_map, annotate_map]
  | leaf key => simp only [accept, settle, storeExpr_eq, annotate_map]
  | placeholder key => simp only [accept, settle, storeExpr_eq, annotate_map]
  | apply operator deps => simp only [accept, settle, storeExpr_eq, bind_map, annotate_map]
  | value payload codec values exprs =>
      simp only [accept, settle, storeValue_eq, bind_map, annotate_map]
  | codec name =>
      rw [accept, settle, ← annotate_map, storeCodec]
      by_cases taken : (decoder.slot position).codec.isSome = true
      · rw [if_pos taken, if_pos taken]
        rfl
      · rw [if_neg taken, if_neg taken]
        cases decoder.lookup name <;> rfl
  | outputValue index =>
      rw [accept, settle, ← annotate_map]
      cases decoder.loadValue position index <;> rfl
  | outputExpr index =>
      rw [accept, settle, ← annotate_map]
      cases decoder.loadExpr position index <;> rfl
  | malformed kind => cases kind <;> rfl

/-- That a step has an effect at a position: what it loads, and the room that it finds. -/
inductive Settles [Extension] (decoder : Decoder) (position : Nat) : Step → Effect → Prop where
  | literal {index : Number} {v : Value} (loaded : decoder.loadValue position index = .ok v)
      (free : (decoder.slot position).isFree = true) :
      Settles decoder position (.literal index) (.expr (.literal v))
  | leaf (key : String) (free : (decoder.slot position).isFree = true) :
      Settles decoder position (.leaf key) (.expr (.leaf key))
  | placeholder (key : String) (free : (decoder.slot position).isFree = true) :
      Settles decoder position (.placeholder key) (.expr (.placeholder key))
  | apply {operator : Number} {deps : List Number} {e : Expr}
      (applied : decoder.applyOperator position operator deps = .ok e)
      (free : (decoder.slot position).isFree = true) :
      Settles decoder position (.apply operator deps) (.expr e)
  | value {payload : Bytes} {codec : Option Number} {values exprs : List Number}
      {vs : List Value} {es : List Expr} {v : Value}
      (loaded : values.mapM (decoder.loadValue position) = .ok vs)
      (loaded' : exprs.mapM (decoder.loadExpr position) = .ok es)
      (decoded : decoder.decodeValue codec payload vs es = .ok v)
      (free : (decoder.slot position).isFree = true) :
      Settles decoder position (.value payload codec values exprs) (.value v)
  | codec {name : String} {decode : ValueDecoder} (vacant : (decoder.slot position).codec = none)
      (found : decoder.lookup name = .ok decode) :
      Settles decoder position (.codec name) (.codec ⟨name, decode⟩)
  | outputValue {index : Number} {v : Value} (loaded : decoder.loadValue position index = .ok v) :
      Settles decoder position (.outputValue index) (.outputValue v)
  | outputExpr {index : Number} {e : Expr} (loaded : decoder.loadExpr position index = .ok e) :
      Settles decoder position (.outputExpr index) (.outputExpr e)

theorem claim_eq_ok_iff {collision : Cause} {wanted : Effect} :
    decoder.claim position collision wanted = .ok effect ↔
      (decoder.slot position).isFree = true ∧ wanted = effect := by
  rw [claim]
  by_cases free : (decoder.slot position).isFree = true
  · rw [if_pos free]
    exact ⟨fun held => ⟨free, Except.ok.inj held⟩, fun held => congrArg Except.ok held.2⟩
  · rw [if_neg free]
    exact ⟨nofun, fun held => absurd held.1 free⟩

theorem applyOperator_eq_ok_iff [Extension] {limit : Nat} {operator : Number} {deps : List Number}
    {e : Expr} :
    decoder.applyOperator limit operator deps = .ok e ↔
      ∃ op, decoder.loadValue limit operator = .ok (.operator op) ∧
        ∃ ds, deps.mapM (decoder.loadExpr limit) = .ok ds ∧
          (if decoder.options.safe then Expr.call op ds decoder.options.inferAttributes
            else .ok (.unchecked op ds)) = .ok e := by
  simp only [applyOperator, bind_eq_ok_iff]
  constructor
  · rintro ⟨v, loaded, applied⟩
    cases v with
    | operator op => exact ⟨op, loaded, bind_eq_ok_iff.mp applied⟩
    | _ => simp [raise_eq] at applied
  · rintro ⟨op, loaded, applied⟩
    exact ⟨_, loaded, bind_eq_ok_iff.mpr applied⟩

theorem settle_codec_eq_ok_iff [Extension] {name : String} :
    decoder.settle position (.codec name) = .ok effect ↔ (decoder.slot position).codec = none ∧
      ∃ decode, decoder.lookup name = .ok decode ∧ .codec ⟨name, decode⟩ = effect := by
  simp only [settle, annotate_eq_ok_iff]
  cases (decoder.slot position).codec with
  | some loaded => exact ⟨nofun, fun held => absurd held.1 nofun⟩
  | none =>
      refine Iff.trans bind_eq_ok_iff ⟨?_, ?_⟩
      · rintro ⟨decode, found, same⟩
        exact ⟨rfl, decode, found, Except.ok.inj same⟩
      · rintro ⟨-, decode, found, same⟩
        exact ⟨decode, found, congrArg Except.ok same⟩

theorem settle_eq_ok_iff [Extension] :
    decoder.settle position step = .ok effect ↔ decoder.Settles position step effect := by
  constructor
  · intro settled
    cases step with
    | malformed kind => cases kind <;> exact absurd settled nofun
    | codec name =>
        obtain ⟨vacant, decode, found, rfl⟩ := settle_codec_eq_ok_iff.mp settled
        exact .codec vacant found
    | literal index =>
        simp only [settle, annotate_eq_ok_iff, bind_eq_ok_iff, claim_eq_ok_iff] at settled
        obtain ⟨v, loaded, free, rfl⟩ := settled
        exact .literal loaded free
    | leaf key =>
        simp only [settle, annotate_eq_ok_iff, claim_eq_ok_iff] at settled
        exact settled.2 ▸ .leaf key settled.1
    | placeholder key =>
        simp only [settle, annotate_eq_ok_iff, claim_eq_ok_iff] at settled
        exact settled.2 ▸ .placeholder key settled.1
    | apply operator deps =>
        simp only [settle, annotate_eq_ok_iff, bind_eq_ok_iff, claim_eq_ok_iff] at settled
        obtain ⟨e, applied, free, rfl⟩ := settled
        exact .apply applied free
    | value payload codec values exprs =>
        simp only [settle, annotate_eq_ok_iff, bind_eq_ok_iff, claim_eq_ok_iff] at settled
        obtain ⟨vs, loaded, es, loaded', v, decoded, free, rfl⟩ := settled
        exact .value loaded loaded' decoded free
    | outputValue index =>
        simp only [settle, annotate_eq_ok_iff, bind_eq_ok_iff] at settled
        obtain ⟨v, loaded, same⟩ := settled
        exact Except.ok.inj same ▸ .outputValue loaded
    | outputExpr index =>
        simp only [settle, annotate_eq_ok_iff, bind_eq_ok_iff] at settled
        obtain ⟨e, loaded, same⟩ := settled
        exact Except.ok.inj same ▸ .outputExpr loaded
  · intro settles
    cases settles with
    | codec vacant found => exact settle_codec_eq_ok_iff.mpr ⟨vacant, _, found, rfl⟩
    | literal loaded free =>
        simp only [settle, annotate_eq_ok_iff, bind_eq_ok_iff, claim_eq_ok_iff]
        exact ⟨_, loaded, free, rfl⟩
    | leaf key free => simpa only [settle, annotate_eq_ok_iff, claim_eq_ok_iff, and_true]
    | placeholder key free => simpa only [settle, annotate_eq_ok_iff, claim_eq_ok_iff, and_true]
    | apply applied free =>
        simp only [settle, annotate_eq_ok_iff, bind_eq_ok_iff, claim_eq_ok_iff]
        exact ⟨_, applied, free, rfl⟩
    | value loaded loaded' decoded free =>
        simp only [settle, annotate_eq_ok_iff, bind_eq_ok_iff, claim_eq_ok_iff]
        exact ⟨_, loaded, _, loaded', _, decoded, free, rfl⟩
    | outputValue loaded =>
        simp only [settle, annotate_eq_ok_iff, bind_eq_ok_iff]
        exact ⟨_, loaded, rfl⟩
    | outputExpr loaded =>
        simp only [settle, annotate_eq_ok_iff, bind_eq_ok_iff]
        exact ⟨_, loaded, rfl⟩

theorem Settles.fits [Extension] (settles : decoder.Settles position step effect) :
    effect.Fits (decoder.slot position) := by
  cases settles with
  | codec vacant found => exact vacant
  | outputValue loaded => trivial
  | outputExpr loaded => trivial
  | literal loaded free => exact free
  | leaf key free => exact free
  | placeholder key free => exact free
  | apply applied free => exact free
  | value loaded loaded' decoded free => exact free

theorem decodeValue_congr {left right : Decoder} (codecs : left.codecs = right.codecs) :
    left.decodeValue = right.decodeValue := by
  funext codec payload values exprs
  cases codec <;> simp only [decodeValue, codecs]

/-- That two decoders look the same from a position: below it, at it as far as there is room, and in
the codecs that have been loaded. -/
structure SameFrom (position : Nat) (left right : Decoder) : Prop where
  options : left.options = right.options
  lookup : left.lookup = right.lookup
  codecs : left.codecs = right.codecs
  below : ∀ earlier < position, left.slot earlier = right.slot earlier
  free : (left.slot position).isFree = (right.slot position).isFree
  vacant : (left.slot position).codec.isSome = (right.slot position).codec.isSome

namespace SameFrom

variable {left right : Decoder}

theorem applyOperator [Extension] (same : SameFrom position left right) :
    left.applyOperator position = right.applyOperator position := by
  funext operator deps
  rw [Decoder.applyOperator, Decoder.applyOperator, loadValue_congr same.below,
    loadExpr_congr same.below, same.options]

theorem claim (same : SameFrom position left right) :
    left.claim position = right.claim position := by
  funext collision effect
  rw [Decoder.claim, Decoder.claim, same.free]

theorem settle [Extension] (same : SameFrom position left right) :
    left.settle position = right.settle position := by
  have values := loadValue_congr same.below
  have exprs := loadExpr_congr same.below
  have decode := decodeValue_congr same.codecs
  funext step
  cases step with
  | malformed kind => cases kind <;> rfl
  | codec name => simp only [Decoder.settle, same.vacant, same.lookup]
  | _ =>
      simp only [Decoder.settle, same.claim, same.applyOperator, decode, values, exprs]

end SameFrom

theorem ensureUsable_eq (usable : decoder.failed = false) : decoder.ensureUsable = .ok () := by
  rw [ensureUsable, usable]
  rfl

theorem ensureUsable_of_failed (failed : decoder.failed = true) :
    decoder.ensureUsable = .error (.of .alreadyFailed) := by
  rw [ensureUsable, failed]
  rfl

def opened (decoder : Decoder) (position : Nat) : Decoder :=
  if position < decoder.size then decoder else decoder.push .empty

@[simp] theorem slot_opened (decoder : Decoder) (position : Nat) :
    (decoder.opened position).slot = decoder.slot := by
  rw [opened]
  split
  · rfl
  · exact decoder.slot_push_empty

theorem lt_size_opened (reached : position ≤ decoder.size) :
    position < (decoder.opened position).size := by
  rw [opened]
  split
  · assumption
  · rw [size_push]
    omega

theorem sameFrom_opened (decoder : Decoder) (position : Nat) :
    SameFrom position (decoder.opened position) decoder := by
  have slots := decoder.slot_opened position
  have fields : (decoder.opened position).options = decoder.options ∧
      (decoder.opened position).lookup = decoder.lookup ∧
      (decoder.opened position).codecs = decoder.codecs := by
    rw [opened]
    split <;> exact ⟨rfl, rfl, rfl⟩
  refine ⟨fields.1, fields.2.1, fields.2.2, fun earlier _ => ?_, ?_, ?_⟩
  all_goals rw [slots]

@[simp] theorem failed_opened (decoder : Decoder) (position : Nat) :
    (decoder.opened position).failed = decoder.failed := by
  rw [opened]
  split <;> rfl

theorem place_ofNat (reached : position ≤ decoder.size) :
    decoder.place (.ofNat position) = .ok (position, decoder.opened position) := by
  change (if position < decoder.size then _ else _) = _
  rw [opened]
  by_cases old : position < decoder.size
  · rw [if_pos old, if_pos old]
  · rw [if_neg old, if_neg old, if_pos (by omega)]
    rfl

def conclude (decoder : Decoder) (position : Nat) : Outcome Effect → Outcome Unit × Decoder
  | .ok effect => (.ok (), decoder.perform position effect)
  | .error problem => (.error problem, { decoder with failed := true })

variable [Extension]

theorem onStep_ofNat (usable : decoder.failed = false) (reached : position ≤ decoder.size)
    (step : Step) : decoder.onStep (.ofNat position) step =
      (decoder.opened position).conclude position (decoder.settle position step) := by
  rw [onStep, ensureUsable_eq usable]
  simp only [place_ofNat reached, accept_eq, (sameFrom_opened decoder position).settle]
  cases decoder.settle position step <;> rfl

/-- All that a call can do. -/
inductive Transition (decoder : Decoder) (index : Number) (step : Step) :
    Outcome Unit → Decoder → Prop where
  | refused (failed : decoder.failed = true) :
      Transition decoder index step (.error (.of .alreadyFailed)) decoder
  | misplaced (usable : decoder.failed = false)
      (outside : ∀ position ≤ decoder.size, index ≠ .ofNat position) :
      Transition decoder index step (.error (.of (.unexpectedPosition index decoder.size)))
        { decoder with failed := true }
  | rejected {position : Nat} {problem : Problem} (usable : decoder.failed = false)
      (placed : index = .ofNat position) (reached : position ≤ decoder.size)
      (settled : decoder.settle position step = .error problem) :
      Transition decoder index step (.error problem)
        { decoder.opened position with failed := true }
  | accepted {position : Nat} {effect : Effect} (usable : decoder.failed = false)
      (placed : index = .ofNat position) (reached : position ≤ decoder.size)
      (settles : decoder.Settles position step effect) :
      Transition decoder index step (.ok ()) ((decoder.opened position).perform position effect)

theorem transition (decoder : Decoder) (index : Number) (step : Step) :
    decoder.Transition index step (decoder.onStep index step).1 (decoder.onStep index step).2 := by
  cases failed : decoder.failed with
  | true =>
      rw [onStep, ensureUsable_of_failed failed]
      exact .refused failed
  | false =>
      by_cases inside : ∃ position ≤ decoder.size, index = .ofNat position
      · obtain ⟨position, reached, rfl⟩ := inside
        rw [onStep_ofNat failed reached]
        cases settled : decoder.settle position step with
        | error problem => exact .rejected failed rfl reached settled
        | ok effect => exact .accepted failed rfl reached (settle_eq_ok_iff.mp settled)
      · have outside : ∀ position ≤ decoder.size, index ≠ .ofNat position :=
          fun position reached same => inside ⟨position, reached, same⟩
        have misplaced : decoder.place index =
            .error (.of (.unexpectedPosition index decoder.size)) := by
          rw [place]
          cases denoted : index.toNat? with
          | none => rfl
          | some position =>
              have beyond : ¬position ≤ decoder.size :=
                fun reached => outside position reached (Number.toNat?_eq_some_iff.mp denoted)
              simp only [if_neg (show ¬position < decoder.size by omega),
                if_neg (show ¬position = decoder.size by omega)]
              rfl
        rw [onStep, ensureUsable_eq failed]
        simp only [misplaced]
        exact .misplaced failed outside

end Decoder

end ExprWire
