import ExprWire.Serialize
import ExprWire.Proofs.Grammar
import ExprWire.Proofs.Recognition
import ExprWire.Proofs.SignatureGrammar
/-!
What decoding blames. Whatever bytes are decoded, a failure lies in the bytes: they are no
container, or one that breaks a rule, or they name something that is not there. Nothing is stored
twice in a replay, no accessor is asked for another type, and a failed step is the last one.
-/

namespace ExprWire

/-- Whether a cause lies in what was given, or else is that something named there is missing. -/
def Cause.OfInputOr (missing : Prop) (cause : Cause) : Prop :=
  cause.OfInput ∨ cause.status = .notFound ∧ missing

theorem FailsFor.orMissing {α : Type} {outcome : Outcome α} {missing : Prop}
    (fails : FailsFor Cause.OfInput outcome) : FailsFor (Cause.OfInputOr missing) outcome :=
  fails.mono fun _ blamed => .inl blamed

theorem FailsFor.widen {α : Type} {outcome : Outcome α} {missing missing' : Prop}
    (fails : FailsFor (Cause.OfInputOr missing) outcome) (wider : missing → missing') :
    FailsFor (Cause.OfInputOr missing') outcome :=
  fails.mono fun _ blamed => blamed.imp_right fun held => ⟨held.1, wider held.2⟩

theorem Expr.failsFor_call [Extension] (op : Operator) (deps : List Expr) (infer : Bool) :
    FailsFor Cause.OfInput (Expr.call op deps infer) := by
  rw [Expr.call]
  have counted := op.signature.failsFor_checkCount deps.length
  cases checked : op.signature.checkCount deps.length with
  | ok _ => exact failsFor_ok _
  | error problem =>
      rw [checked] at counted
      rcases counted problem rfl with ⟨fault, rfl, blamed⟩
      rintro _ ⟨⟩
      exact ⟨_, rfl, blamed⟩

section

open Reader

theorem Reader.blames_nat (width : Nat) : Blames (nat width) := (exact_bytes width).blames.map

theorem Reader.rest_of_expectEnd {cursor after : Cursor}
    (run : expectEnd.run cursor = (.ok (), after)) : cursor.rest = [] := by
  cases cursor with
  | mk offset rest =>
      cases rest with
      | nil => rfl
      | cons first rest => cases run

theorem Reader.failsFor_tagged {α : Type} {kind : Cause → Prop} {name : String}
    {rest : Reader (Option α)} {payload : Bytes}
    (behind : ∀ label cursor, payload = label ++ cursor.rest → Grammar.Text label name →
      FailsFor kind (rest.run cursor).1) :
    FailsFor kind (parse (do if ← tag name then rest else return none) payload) := by
  rcases parse_tagged name rest payload with ⟨-, declined⟩ | ⟨-, cursor, read, claimed⟩
  · rw [declined]
    exact failsFor_ok none
  · rcases exact_text.spelled read with ⟨label, taken, spelled⟩
    rw [claimed]
    exact behind label cursor taken spelled

namespace ScalarCodec

theorem blames_readBoolean : Blames readBoolean := by
  refine exact_byte.blames.bind fun byte => ?_
  split
  · exact blames_pure false
  · exact blames_pure true
  · exact blames_raise rfl

theorem blames_readValue : Blames readValue := by
  refine exact_byte.blames.bind fun code => ?_
  split
  · exact (blames_nat 4).map.map
  · exact (blames_nat 8).map.map
  · exact (blames_nat 4).map.map
  · exact (blames_nat 8).map.map
  · exact blames_readBoolean.map
  · exact exact_text.blames.map
  · exact exact_blob.blames.map
  · exact blames_pure Value.unit
  · exact blames_raise rfl

theorem failsFor_decode (payload : Bytes) (vs : List Value) (es : List Expr) :
    FailsFor Cause.OfInput (decode payload vs es) := by
  refine failsFor_tagged fun label cursor _ _ => Blames.failsFor ?_ cursor
  split
  · exact blames_raise rfl
  · exact blames_readValue.bind fun v => blames_expectEnd.bind fun _ => blames_pure (some v)

end ScalarCodec

theorem TupleCodec.failsFor_decode (payload : Bytes) (vs : List Value) (es : List Expr) :
    FailsFor Cause.OfInput (decode payload vs es) := by
  refine failsFor_tagged fun label cursor _ _ => Blames.failsFor ?_ cursor
  refine blames_expectEnd.bind fun _ => ?_
  split
  · exact blames_raise rfl
  · exact blames_pure (some (Value.tuple vs))

namespace OperatorCodec

variable {operators : OperatorRegistry}

def Dangling (operators : OperatorRegistry) (payload : Bytes) : Prop :=
  ∃ label reference missing, payload = label ++ 1 :: reference ∧
    Grammar.Text label OperatorCodec.name ∧ Grammar.Text reference missing ∧
    operators.find? missing = none

theorem failsFor_outputType (word : String) : FailsFor Cause.OfInput (outputType word) := by
  rw [outputType]
  split
  · exact failsFor_ok none
  · split
    · exact failsFor_ok _
    · exact failsFor_raise rfl

theorem blames_description : Blames (do
      let name ← Reader.text
      let spec ← Reader.text
      let doc ← Reader.text
      let output ← Reader.text
      Reader.expectEnd
      let output ← outputType output
      let signature ← Signature.parse spec
      return .backend name signature doc output : Reader Operator) :=
  exact_text.blames.bind fun _ => exact_text.blames.bind fun spec =>
    exact_text.blames.bind fun _ => exact_text.blames.bind fun output =>
    blames_expectEnd.bind fun _ => (blames_lift (failsFor_outputType output)).bind fun _ =>
    (blames_lift (Signature.failsFor_parse spec)).map

theorem reference_fails {cursor after : Cursor} {problem : Problem}
    (run : (do
      let name ← Reader.text
      Reader.expectEnd
      operators.lookup name : Reader Operator).run cursor = (.error problem, after)) :
    (∃ fault, problem = .fault fault ∧ fault.cause.OfInput) ∨
    ∃ missing, Grammar.Text cursor.rest missing ∧ operators.find? missing = none ∧
      problem = .of (.operatorNotFound missing) := by
  rcases run_bind_cases run with ⟨missing, behind, read, run⟩ | ⟨other, read, same⟩
  · rcases exact_text.spelled read with ⟨reference, taken, spelled⟩
    rcases run_bind_cases run with ⟨⟨⟩, last, ended, run⟩ | ⟨other, read, same⟩
    · rw [rest_of_expectEnd ended, List.append_nil] at taken
      have looked : operators.lookup missing = .error problem := (Prod.mk.inj run).1
      obtain ⟨absent, same⟩ := OperatorRegistry.lookup_eq_error_iff.mp looked
      exact .inr ⟨missing, taken ▸ spelled, absent, same⟩
    · cases same
      exact .inl (blames_expectEnd read)
  · cases same
    exact .inl (exact_text.blames read)

theorem readOperator_fails {cursor after : Cursor} {problem : Problem}
    (run : (readOperator operators).run cursor = (.error problem, after)) :
    (∃ fault, problem = .fault fault ∧ fault.cause.OfInput) ∨
    ∃ reference missing, cursor.rest = 1 :: reference ∧ Grammar.Text reference missing ∧
      operators.find? missing = none ∧ problem = .of (.operatorNotFound missing) := by
  rcases run_bind_cases run with ⟨kind, behind, read, run⟩ | ⟨other, read, same⟩
  · split at run
    · rename_i one
      rcases exact_byte.spelled read with ⟨_, taken, rfl⟩
      rw [show kind = 1 from UInt8.toNat_inj.mp one] at taken
      exact (reference_fails run).imp_right fun ⟨missing, held⟩ => ⟨_, missing, taken, held⟩
    · exact .inl (blames_description run)
    · exact .inl ((blames_expectEnd.bind fun _ => blames_pure Operator.makeTuple) run)
    · have blames : Blames (raise (.unknownOperatorKind kind.toNat) : Reader Operator) :=
        blames_raise rfl
      exact .inl (blames run)
  · cases same
    exact .inl (exact_byte.blames read)

theorem failsFor_decode (payload : Bytes) (vs : List Value) (es : List Expr) :
    FailsFor (Cause.OfInputOr (Dangling operators payload)) (decode operators payload vs es) := by
  refine failsFor_tagged fun label cursor whole own => ?_
  split
  · refine (Blames.failsFor ?_ cursor).orMissing
    exact blames_raise rfl
  · intro problem failed
    have run : (do return some (Value.operator (← readOperator operators)) : Reader _).run cursor =
      (.error problem, _) := Prod.ext failed rfl
    rcases run_bind_cases run with ⟨op, middle, -, made⟩ | ⟨other, read, same⟩
    · cases made
    · cases same
      rcases readOperator_fails read with
        ⟨fault, rfl, blamed⟩ | ⟨reference, missing, taken, spelled, absent, rfl⟩
      · exact ⟨fault, rfl, .inl blamed⟩
      · exact ⟨_, rfl, .inr ⟨rfl, label, reference, missing, taken ▸ whole, own, spelled, absent⟩⟩

end OperatorCodec

end

namespace CodecRegistry

variable {operators : OperatorRegistry}

theorem failsFor_decode {name : String} {decode : ValueDecoder}
    (found : (standard operators).lookup name = .ok decode) (payload : Bytes) (vs : List Value)
    (es : List Expr) :
    FailsFor (Cause.OfInputOr (OperatorCodec.Dangling operators payload)) (decode payload vs es) :=
  lookup_standard (motive := fun _ decode => FailsFor _ (decode payload vs es)) found
    (ScalarCodec.failsFor_decode payload vs es).orMissing
    (TupleCodec.failsFor_decode payload vs es).orMissing
    (OperatorCodec.failsFor_decode payload vs es)

theorem failsFor_lookup (registry : CodecRegistry) (name : String) :
    FailsFor Cause.OfInput (registry.lookup name) := by
  rw [lookup]
  split
  · exact failsFor_ok _
  · exact failsFor_raise rfl

end CodecRegistry

/-- That a step holds a value that names something missing: a loaded codec that does not recognise
the payload, or, in the payload, an operator that is not bound. -/
inductive Decoder.Misses (operators : OperatorRegistry) (decoder : Decoder) : Step → Prop where
  | codec {slot : Nat} {loaded : LoadedCodec} {payload : Bytes} {values exprs : List Number}
      (named : decoder.codecs[slot]? = some loaded)
      (declined : ∀ vs es, loaded.decode payload vs es = .ok none) :
      Misses operators decoder (.value payload (some (.ofNat slot)) values exprs)
  | operator {codec : Option Number} {payload : Bytes} {values exprs : List Number}
      (dangling : OperatorCodec.Dangling operators payload) :
      Misses operators decoder (.value payload codec values exprs)

namespace Decoder

variable {operators : OperatorRegistry} {decoder after : Decoder} {step : Step} {steps : List Step}

theorem failsFor_applyOperator [Extension] (limit : Nat) (operator : Number) (deps : List Number) :
    FailsFor Cause.OfInput (decoder.applyOperator limit operator deps) := by
  refine (failsFor_loadValue limit operator).bind fun v _ => ?_
  split
  · refine (failsFor_mapM (failsFor_loadExpr limit) deps).bind fun ds _ => ?_
    split
    · exact Expr.failsFor_call _ _ _
    · exact failsFor_ok _
  · exact failsFor_raise rfl

section

variable {payload : Bytes} {vs : List Value} {es : List Expr}

theorem failsFor_tryCodec {codec : LoadedCodec}
    (found : (CodecRegistry.standard operators).lookup codec.name = .ok codec.decode) (slot : Nat) :
    FailsFor (Cause.OfInputOr (OperatorCodec.Dangling operators payload))
      (tryCodec slot codec payload vs es) :=
  (CodecRegistry.failsFor_decode found payload vs es).annotate _

theorem failsFor_tryCodecs {codecs : List LoadedCodec}
    (standard : ∀ codec ∈ codecs,
      (CodecRegistry.standard operators).lookup codec.name = .ok codec.decode) (slot : Nat) :
    FailsFor (Cause.OfInputOr (OperatorCodec.Dangling operators payload))
      (tryCodecs payload vs es slot codecs) := by
  induction codecs generalizing slot with
  | nil => exact failsFor_raise (.inl rfl)
  | cons codec codecs ih =>
      refine (failsFor_tryCodec (standard codec List.mem_cons_self) slot).bind fun result _ => ?_
      cases result with
      | some v => exact failsFor_ok v
      | none => exact ih (fun other present => standard other (List.mem_cons_of_mem _ present)) _

theorem declines_of_declined {codec : LoadedCodec}
    (found : (CodecRegistry.standard operators).lookup codec.name = .ok codec.decode)
    (declined : codec.decode payload vs es = .ok none) (vs' : List Value) (es' : List Expr) :
    codec.decode payload vs' es' = .ok none := by
  have recognises := recognises_of_lookup found
  refine recognises.declines (fun own => ?_) vs' es'
  obtain ⟨v, same, -⟩ := recognises.restores own declined
  cases same

theorem Equipped.failsFor_decodeValue (equipped : Equipped operators decoder)
    (codec : Option Number) (values exprs : List Number) :
    FailsFor (Cause.OfInputOr (Misses operators decoder (.value payload codec values exprs)))
      (decoder.decodeValue codec payload vs es) := by
  cases codec with
  | none => exact (failsFor_tryCodecs equipped.loaded 0).widen .operator
  | some index =>
      unfold decodeValue
      dsimp only
      cases chosen : index.toNat?.bind fun slot => decoder.codecs[slot]?.map (slot, ·) with
      | none => exact failsFor_raise (.inl rfl)
      | some entry =>
          obtain ⟨slot, denoted, mapped⟩ := Option.bind_eq_some_iff.mp chosen
          obtain ⟨loaded, named, rfl⟩ := Option.map_eq_some_iff.mp mapped
          obtain rfl := Number.toNat?_eq_some_iff.mp denoted
          have found := equipped.loaded loaded (Array.mem_toList_iff.mpr
            (Array.mem_of_getElem? named))
          refine ((failsFor_tryCodec found slot).widen .operator).bind fun result tried => ?_
          cases result with
          | some v => exact failsFor_ok v
          | none =>
              have declined := declines_of_declined found (tryCodec_eq_ok_iff.mp tried)
              exact failsFor_raise (.inr ⟨rfl, .codec named declined⟩)

end

theorem claim_size (collision : Cause) (effect : Effect) :
    decoder.claim decoder.size collision effect = .ok effect := by
  rw [claim, slot_of_size_le (Nat.le_refl _)]
  rfl

theorem Equipped.failsFor_settle [Extension] (equipped : Equipped operators decoder) (step : Step) :
    FailsFor (Cause.OfInputOr (Misses operators decoder step))
      (decoder.settle decoder.size step) := by
  have value (index : Number) : FailsFor Cause.OfInput (decoder.loadValue decoder.size index) :=
    failsFor_loadValue decoder.size index
  have expr (index : Number) : FailsFor Cause.OfInput (decoder.loadExpr decoder.size index) :=
    failsFor_loadExpr decoder.size index
  cases step with
  | literal index =>
      simp only [settle, claim_size]
      exact (((value index).bind fun v _ => failsFor_ok _).annotate _).orMissing
  | leaf key =>
      simp only [settle, claim_size]
      exact failsFor_ok _
  | placeholder key =>
      simp only [settle, claim_size]
      exact failsFor_ok _
  | apply operator deps =>
      simp only [settle, claim_size]
      exact (((failsFor_applyOperator _ operator deps).bind fun e _ =>
        failsFor_ok _).annotate _).orMissing
  | value payload codec values exprs =>
      simp only [settle, claim_size]
      refine FailsFor.annotate (FailsFor.bind (failsFor_mapM value values).orMissing fun vs _ =>
        FailsFor.bind (failsFor_mapM expr exprs).orMissing fun es _ => ?_) _
      exact (equipped.failsFor_decodeValue codec values exprs).bind fun v _ => failsFor_ok _
  | codec name =>
      simp only [settle, slot_of_size_le (Nat.le_refl _), equipped.lookup]
      refine (FailsFor.annotate ?_ _).orMissing
      exact ((CodecRegistry.standard operators).failsFor_lookup name).bind fun decode _ =>
        failsFor_ok _
  | outputValue index =>
      exact (((value index).bind fun v _ => failsFor_ok _).annotate _).orMissing
  | outputExpr index =>
      exact (((expr index).bind fun e _ => failsFor_ok _).annotate _).orMissing
  | malformed kind =>
      cases kind <;> exact failsFor_raise (.inl rfl)

end Decoder

/-- Whether decoding may fail for a cause. That nothing is stored twice, that no step is given to a
decoder that has failed and that nothing foreign is thrown follows from the status already. -/
def Cause.Documented (cause : Cause) : Prop :=
  (cause.status = .invalidArgument ∨ cause.status = .notFound) ∧
    cause ∉ [.alreadyFailed, .codecCollision, .valueCollision, .exprCollision] ∧
    (∀ expected actual, cause ≠ .typeMismatch expected actual) ∧ ∀ thrown, cause ≠ .foreign thrown

theorem Cause.OfInputOr.documented {cause : Cause} {missing : Prop}
    (blamed : cause.OfInputOr missing) : cause.Documented := by
  have status : cause.status = .invalidArgument ∨ cause.status = .notFound :=
    blamed.imp OfInput.status_eq And.left
  refine ⟨status, fun listed => ?_, ?_, ?_⟩
  · simp only [List.mem_cons, List.not_mem_nil, or_false] at listed
    rcases listed with rfl | rfl | rfl | rfl <;> exact absurd status (by decide)
  · rintro expected actual rfl
    rcases blamed with blamed | ⟨other, -⟩
    · exact blamed
    · cases other
  · rintro thrown rfl
    rcases status with other | other <;> cases other

theorem Container.failsFor_checkVersion (container : Container) :
    FailsFor Cause.OfInput container.checkVersion := by
  rw [checkVersion]
  split
  · exact failsFor_raise rfl
  · split
    · exact failsFor_ok ()
    · exact failsFor_raise rfl

theorem Decoder.failsFor_outputs {decoder : Decoder} (usable : decoder.failed = false)
    (outputValues outputExprs : List Number) :
    FailsFor Cause.OfInput (do
      let marked ← decoder.finish
      let values ← annotate .loadingOutputValues (decoder.resolveValues outputValues)
      let exprs ← annotate .loadingOutputExprs (decoder.resolveExprs outputExprs)
      return ⟨marked.values ++ values, marked.exprs ++ exprs⟩ : Outcome Decoded) := by
  rw [finish, resolveValues, resolveExprs, ensureUsable_eq usable]
  refine (failsFor_ok decoder.marked).bind fun marked _ => ?_
  refine ((failsFor_mapM (failsFor_loadValue _) outputValues).annotate _).bind fun vs _ => ?_
  refine ((failsFor_mapM (failsFor_loadExpr _) outputExprs).annotate _).bind fun es _ => ?_
  exact failsFor_ok _

section

variable (container : Container) (registry : CodecRegistry) (options : Options)

/-- That a byte string is a container of the current version whose steps are not all accepted. -/
structure Container.Breaks [Extension] (bytes : Bytes) : Prop where
  read : Container.read bytes = .ok container
  current : container.checkVersion = .ok ()
  stopped : ∃ problem,
    (Decoder.start registry.lookup options).replaySteps 0 container.steps = .error problem

/-- That the steps before a position are accepted, which leads to a decoder that rejects the step at
the position. -/
structure Container.StopsAt [Extension] (position : Nat) (before : Decoder) (step : Step) :
    Prop where
  found : container.steps[position]? = some step
  accepted : (Decoder.start registry.lookup options).replaySteps 0
    (container.steps.take position) = .ok before
  rejected : ∃ problem, (before.onStep position step).1 = .error problem

end

variable {operators : OperatorRegistry} {options : Options} {bytes : Bytes} {problem : Problem}

theorem Container.exists_stopsAt [Extension] {container : Container}
    (failed : (Decoder.start (CodecRegistry.standard operators).lookup options).replaySteps 0
      container.steps = .error problem) :
    ∃ fault position before step, problem = .fault fault ∧
      container.StopsAt (.standard operators) options position before step ∧
      fault.notes.getLast? = some (.handlingStep position) ∧
      fault.cause.OfInputOr (before.Misses operators step) := by
  obtain ⟨earlier, step, later, before, rejection, steps, run, settled, rfl⟩ :=
    (Decoder.replaySteps_eq_error_iff rfl).mp failed
  have equipped := (Decoder.equipped_start operators options).run run
  obtain ⟨fault, rfl, blamed⟩ := equipped.failsFor_settle step rejection settled
  have reached : before.size = earlier.length := run.size_eq.trans (Nat.zero_add _)
  refine ⟨_, before.size, before, step, rfl, ⟨?found, ?accepted, .fault fault, ?rejected⟩,
    List.getLast?_concat, blamed⟩
  case found =>
    rw [steps, reached]
    simp
  case accepted =>
    rw [steps, reached, List.take_left]
    exact (Decoder.replaySteps_eq_ok_iff rfl).mpr run
  case rejected =>
    rw [Decoder.onStep_size (run.usable rfl), settled]
    rfl

/-- How decoding bytes fails: in the replay of a container's steps, or before or behind it. -/
inductive Refusal [Extension] (operators : OperatorRegistry) (options : Options) (bytes : Bytes)
    (fault : Fault) : Prop where
  | outside (blamed : fault.cause.OfInput)
      (whole : ∀ container : Container, ¬container.Breaks (.standard operators) options bytes)
  | replaying {container : Container} {position : Nat} {before : Decoder} {step : Step}
      (breaks : container.Breaks (.standard operators) options bytes)
      (stops : container.StopsAt (.standard operators) options position before step)
      (noted : fault.notes.getLast? = some (.handlingStep position))
      (blamed : fault.cause.OfInputOr (before.Misses operators step))

theorem exists_refusal [Extension]
    (failed : deserializeFromBytes (.standard operators) options bytes = .error problem) :
    ∃ fault, problem = .fault fault ∧ Refusal operators options bytes fault := by
  rcases bind_eq_error_iff.mp failed with unread | ⟨container, read, failed⟩
  · obtain ⟨fault, rfl, blamed⟩ := Container.failsFor_read bytes problem unread
    exact ⟨fault, rfl, .outside blamed fun other breaks => nomatch unread.symm.trans breaks.read⟩
  · have only {other : Container} (breaks : other.Breaks (.standard operators) options bytes) :
        container = other := Except.ok.inj (read.symm.trans breaks.read)
    rcases bind_eq_error_iff.mp failed with outdated | ⟨⟨⟩, current, failed⟩
    · obtain ⟨fault, rfl, blamed⟩ := container.failsFor_checkVersion problem outdated
      refine ⟨fault, rfl, .outside blamed fun other breaks => ?_⟩
      obtain rfl := only breaks
      exact nomatch outdated.symm.trans breaks.current
    · rcases bind_eq_error_iff.mp failed with stopped | ⟨decoder, replayed, failed⟩
      · obtain ⟨fault, position, before, step, rfl, stops, noted, blamed⟩ :=
          Container.exists_stopsAt stopped
        exact ⟨fault, rfl, .replaying ⟨read, current, _, stopped⟩ stops noted blamed⟩
      · have run := (Decoder.replaySteps_eq_ok_iff rfl).mp replayed
        obtain ⟨fault, rfl, blamed⟩ :=
          Decoder.failsFor_outputs (run.usable rfl) _ _ problem failed
        refine ⟨fault, rfl, .outside blamed fun other breaks => ?_⟩
        obtain rfl := only breaks
        obtain ⟨_, stopped⟩ := breaks.stopped
        exact nomatch replayed.symm.trans stopped

/-- Decoding bytes fails for nothing but the bytes, whatever they are. If it fails while steps are
replayed, the last note names the first step that is not accepted. Something is missing only if that
step stores a value, and names a codec that does not recognise the payload or, in the payload, an
operator that is not bound. -/
theorem deserializeFromBytes_blames [Extension]
    (failed : deserializeFromBytes (.standard operators) options bytes = .error problem) :
    ∃ fault, problem = .fault fault ∧ fault.cause.Documented ∧
      (∀ container : Container, container.Breaks (.standard operators) options bytes →
        ∃ position before step,
          container.StopsAt (.standard operators) options position before step ∧
          fault.notes.getLast? = some (.handlingStep position) ∧
          (fault.status = .notFound → before.Misses operators step)) ∧
      (fault.status = .notFound →
        ∃ container : Container, container.Breaks (.standard operators) options bytes) := by
  obtain ⟨fault, rfl, refusal⟩ := exists_refusal failed
  cases refusal with
  | outside blamed whole =>
      have status := blamed.status_eq
      exact ⟨fault, rfl, (show Cause.OfInputOr False _ from .inl blamed).documented,
        fun container breaks => absurd breaks (whole container),
        fun missing => nomatch status.symm.trans missing⟩
  | @replaying container position before step breaks stops noted blamed =>
      refine ⟨fault, rfl, blamed.documented, fun other breaks' => ?_, fun _ => ⟨container, breaks⟩⟩
      obtain rfl : container = other := Except.ok.inj (breaks.read.symm.trans breaks'.read)
      refine ⟨position, before, step, stops, noted, fun missing => ?_⟩
      rcases blamed with blamed | ⟨-, misses⟩
      · exact nomatch blamed.status_eq.symm.trans missing
      · exact misses

def OperatorCodec.ghost : Bytes :=
  Spelling.text OperatorCodec.name ++ OperatorCodec.content (.registered "ghost" .makeTuple)

theorem OperatorCodec.decode_ghost :
    decode .empty ghost [] [] = .error (.of (.operatorNotFound "ghost")) := by
  have supported : Supported (.registered "ghost" .makeTuple) := trivial
  have short : Fits (.registered "ghost" .makeTuple) :=
    show (Text.utf8 "ghost").length ≤ Varint.limit by decide
  exact decode_spelled supported short

namespace Container

def ghost : Container where
  version := some 1
  steps := [.codec OperatorCodec.name, .value OperatorCodec.ghost (some 0) [] []]
  outputValues := []
  outputExprs := []

theorem deserialize_ghost : deserialize (.standard .empty) .default ghost =
    .error (.fault ⟨.operatorNotFound "ghost",
      [.usingCodec 0 OperatorCodec.name, .ofStepType "VALUE", .handlingStep 1]⟩) := by
  let loaded : LoadedCodec := ⟨OperatorCodec.name, OperatorCodec.decode .empty⟩
  let start : Decoder := .start (CodecRegistry.standard .empty).lookup .default
  let before := start.grow (.codec loaded)
  have run : start.Run [.codec OperatorCodec.name] before := .next (.codec rfl rfl) (.done before)
  have decoded : before.decodeValue (some 0) OperatorCodec.ghost [] [] =
      .error (.fault ⟨.operatorNotFound "ghost", [.usingCodec 0 OperatorCodec.name]⟩) := by
    have tried : Decoder.tryCodec 0 loaded OperatorCodec.ghost [] [] = _ :=
      congrArg (annotate (.usingCodec 0 loaded.name)) OperatorCodec.decode_ghost
    unfold Decoder.decodeValue
    change (Decoder.tryCodec 0 loaded OperatorCodec.ghost [] [] >>= _) = _
    rw [tried]
    rfl
  have settled : before.settle 1 (.value OperatorCodec.ghost (some 0) [] []) =
      .error (.fault ⟨.operatorNotFound "ghost",
        [.usingCodec 0 OperatorCodec.name, .ofStepType "VALUE"]⟩) := by
    simp only [Decoder.settle, List.mapM_nil, pure_bind, decoded]
    rfl
  have stopped : start.replaySteps start.size ghost.steps = _ :=
    (Decoder.replaySteps_eq_error_iff rfl).mpr ⟨_, _, [], before, _, rfl, run, settled, rfl⟩
  exact bind_eq_error_iff.mpr (.inr ⟨(), rfl, bind_eq_error_iff.mpr (.inl stopped)⟩)

theorem read_ghost : ∃ bytes, Container.read bytes = .ok ghost := by
  have short : OperatorCodec.ghost.length ≤ Varint.limit := by
    rw [OperatorCodec.ghost, List.length_append, OperatorCodec.content, List.length_append,
      Spelling.length_text (by decide), Spelling.length_text (by decide)]
    decide
  have formed : ghost.Formed := by
    intro step listed
    simp only [ghost, List.mem_cons, List.not_mem_nil, or_false] at listed
    rcases listed with rfl | rfl <;> trivial
  have fits : ghost.Fits := by
    refine ⟨⟨1, rfl, by decide⟩, by decide, fun step listed => ?_, by decide, by decide⟩
    simp only [ghost, List.mem_cons, List.not_mem_nil, or_false] at listed
    rcases listed with rfl | rfl
    · exact OperatorCodec.short_name
    · exact ⟨short, by decide, by decide, by decide⟩
  obtain ⟨bytes, -, read⟩ := Container.read_write fits formed
  exact ⟨bytes, read⟩

end Container

theorem deserializeFromBytes_blames_ghost : ∃ bytes,
    deserializeFromBytes (.standard .empty) .default bytes =
      .error (.fault ⟨.operatorNotFound "ghost",
        [.usingCodec 0 OperatorCodec.name, .ofStepType "VALUE", .handlingStep 1]⟩) ∧
    ∃ before, Container.ghost.StopsAt (.standard .empty) .default 1 before
        (.value OperatorCodec.ghost (some 0) [] []) ∧
      before.Misses .empty (.value OperatorCodec.ghost (some 0) [] []) := by
  obtain ⟨bytes, read⟩ := Container.read_ghost
  have failed : deserializeFromBytes (.standard .empty) .default bytes = _ :=
    bind_eq_error_iff.mpr (.inr ⟨.ghost, read, Container.deserialize_ghost⟩)
  obtain ⟨_, ⟨⟩, -, stops, replays⟩ := deserializeFromBytes_blames failed
  obtain ⟨container, breaks⟩ := replays rfl
  obtain rfl : Container.ghost = container := Except.ok.inj (read.symm.trans breaks.read)
  obtain ⟨position, before, step, stopped, noted, misses⟩ := stops .ghost breaks
  obtain rfl : 1 = position := by cases noted; rfl
  obtain rfl := Option.some.inj stopped.found
  exact ⟨bytes, failed, before, stopped, misses rfl⟩

end ExprWire
