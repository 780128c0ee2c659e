import ExprWire.Proofs.Effect
/-!
Failures of a decoder. A step that fails changes nothing that is stored, and nothing is answered
after it; whatever else fails leaves the decoder as it is.
-/

namespace ExprWire

namespace Decoder

inductive Request where
  | step (index : Number) (step : Step)
  | finish
  | values (indices : List Number)
  | exprs (indices : List Number)

inductive Answer where
  | done
  | outputs (decoded : Decoded)
  | values (vs : List Value)
  | exprs (es : List Expr)

def respond [Extension] (decoder : Decoder) : Request → Outcome Answer × Decoder
  | .step index step =>
      let (result, after) := decoder.onStep index step
      (result.map fun _ => .done, after)
  | .finish => (decoder.finish.map .outputs, decoder)
  | .values indices => ((decoder.resolveValues indices).map .values, decoder)
  | .exprs indices => ((decoder.resolveExprs indices).map .exprs, decoder)

def serve [Extension] (decoder : Decoder) : List Request → List (Outcome Answer) × Decoder
  | [] => ([], decoder)
  | request :: requests =>
      let (answer, after) := decoder.respond request
      let (answers, last) := after.serve requests
      (answer :: answers, last)

def refusal : Problem := .of .alreadyFailed

variable {decoder before after : Decoder}

/-- That nothing stored differs; at most an empty slot has come to it. -/
structure Unharmed (before after : Decoder) : Prop where
  slots : after.slots = before.slots ∨ after.slots = before.slots.push .empty
  codecs : after.codecs = before.codecs
  outputValues : after.outputValues = before.outputValues
  outputExprs : after.outputExprs = before.outputExprs

theorem unharmed_opened (decoder : Decoder) (position : Nat) :
    Unharmed decoder (decoder.opened position) := by
  rw [opened]
  split
  · exact ⟨.inl rfl, rfl, rfl, rfl⟩
  · exact ⟨.inr rfl, rfl, rfl, rfl⟩

theorem Transition.unharmed [Extension] {index : Number} {step : Step} {result : Outcome Unit}
    {problem : Problem} (moved : before.Transition index step result after)
    (failure : result = .error problem) : Unharmed before after ∧ after.failed = true := by
  cases moved with
  | refused failed => exact ⟨⟨.inl rfl, rfl, rfl, rfl⟩, failed⟩
  | misplaced usable outside => exact ⟨⟨.inl rfl, rfl, rfl, rfl⟩, rfl⟩
  | @rejected position _ usable placed reached settled =>
      exact ⟨{ before.unharmed_opened position with }, rfl⟩
  | accepted usable placed reached settles => exact absurd failure nofun

theorem respond_failed [Extension] (failed : decoder.failed = true) (request : Request) :
    decoder.respond request = (.error refusal, decoder) := by
  have refused : decoder.ensureUsable = .error refusal := ensureUsable_of_failed failed
  cases request with
  | step index step =>
      rw [respond, onStep, refused]
      rfl
  | finish =>
      rw [respond, finish, refused]
      rfl
  | values indices =>
      rw [respond, resolveValues, refused]
      rfl
  | exprs indices =>
      rw [respond, resolveExprs, refused]
      rfl

theorem serve_failed [Extension] (failed : decoder.failed = true) (requests : List Request) :
    decoder.serve requests = (requests.map fun _ => .error refusal, decoder) := by
  induction requests with
  | nil => rfl
  | cons request requests ih =>
      simp only [serve, respond_failed failed, ih, List.map_cons]

theorem ne_refusal_of_failsFor {α : Type} {outcome : Outcome α}
    (fails : FailsFor Cause.OfInput outcome) : outcome ≠ .error refusal := by
  intro refused
  obtain ⟨fault, same, blamed⟩ := fails refusal refused
  obtain rfl := Problem.fault.inj same
  exact absurd blamed (nofun : Status.failedPrecondition ≠ .invalidArgument)

variable [Extension]

theorem settle_ne_refusal (position : Nat) (step : Step) :
    decoder.settle position step ≠ .error refusal := by
  cases step with
  | malformed kind => cases kind <;> exact nofun
  | _ => exact annotate_ne_raise _ _ .alreadyFailed

theorem Transition.not_refused {index : Number} {step : Step} {result : Outcome Unit}
    (moved : before.Transition index step result after) (usable : before.failed = false) :
    result ≠ .error refusal := by
  cases moved with
  | refused failed => exact absurd (usable.symm.trans failed) nofun
  | misplaced usable outside => exact nofun
  | @rejected position problem usable placed reached settled =>
      exact fun same => settle_ne_refusal position step
        (settled.trans (congrArg Except.error (Except.error.inj same)))
  | accepted usable placed reached settles => exact nofun

theorem respond_usable (usable : decoder.failed = false) (request : Request) :
    (decoder.respond request).1 ≠ .error refusal := by
  intro refused
  cases request with
  | step index step =>
      exact (decoder.transition index step).not_refused usable (map_eq_error_iff.mp refused)
  | finish =>
      rw [respond, finish, ensureUsable_eq usable] at refused
      exact absurd refused nofun
  | values indices =>
      rw [respond, resolveValues, ensureUsable_eq usable] at refused
      exact ne_refusal_of_failsFor (failsFor_mapM (failsFor_loadValue decoder.size) indices)
        (map_eq_error_iff.mp refused)
  | exprs indices =>
      rw [respond, resolveExprs, ensureUsable_eq usable] at refused
      exact ne_refusal_of_failsFor (failsFor_mapM (failsFor_loadExpr decoder.size) indices)
        (map_eq_error_iff.mp refused)

theorem Transition.usable {index : Number} {step : Step} {result : Outcome Unit}
    (moved : before.Transition index step result after) (usable : before.failed = false)
    (success : ∀ problem, result ≠ .error problem) : after.failed = false := by
  cases moved with
  | accepted _ placed reached settles => rw [failed_perform, failed_opened, usable]
  | _ => exact absurd rfl (success _)

theorem serve_usable {history : List Request} (usable : decoder.failed = false)
    (success : ∀ index step problem,
      (.step index step, .error problem) ∉ history.zip (decoder.serve history).1) :
    (decoder.serve history).2.failed = false := by
  induction history generalizing decoder with
  | nil => exact usable
  | cons request history ih =>
      have next : (decoder.respond request).2.failed = false := by
        cases request with
        | step index step =>
            refine (decoder.transition index step).usable usable fun problem failed => ?_
            refine success index step problem (List.mem_cons.mpr (.inl (Prod.ext rfl ?_)))
            exact (map_eq_error_iff.mpr failed).symm
        | _ => exact usable
      exact ih next fun index step problem failed =>
        success index step problem (List.mem_cons_of_mem _ failed)

/-- The first step that fails is the last that has any effect. Whatever a step fails for, nothing
stored has changed, and every later request is refused and changes nothing. Only steps change a
decoder at all. As long as no step has failed, nothing is refused. -/
theorem failure_final (lookup : CodecLookup) (options : Options) (history : List Request) :
    refusal.hasStatus .failedPrecondition = true ∧
    (∀ (decoder after : Decoder) index step problem,
      decoder.onStep index step = (.error problem, after) → Unharmed decoder after ∧
        ∀ later, after.serve later = (later.map fun _ => .error refusal, after)) ∧
    (∀ (decoder : Decoder) request, (∀ index step, request ≠ .step index step) →
      (decoder.respond request).2 = decoder) ∧
    ((∀ index step problem, (.step index step, .error problem) ∉
        history.zip ((start lookup options).serve history).1) →
      ∀ request, (((start lookup options).serve history).2.respond request).1 ≠
        .error refusal) := by
  refine ⟨rfl, ?_, ?_, ?_⟩
  · intro decoder after index step problem ran
    have moved := decoder.transition index step
    rw [ran] at moved
    obtain ⟨unharmed, failed⟩ := moved.unharmed rfl
    exact ⟨unharmed, serve_failed failed⟩
  · intro decoder request other
    cases request with
    | step index step => exact absurd rfl (other index step)
    | _ => rfl
  · exact fun success => respond_usable (serve_usable rfl success)

end Decoder

end ExprWire
