import ExprWire.Proofs.Recognition
import ExprWire.Proofs.RoundTrip
/-!
Probing for a codec. A step that names no codec slot is decoded with the first codec that recognises
its payload. No other codec does, so a step that is decoded with the codec it names is decoded to
the same value without the name.
-/

namespace ExprWire

def Step.uncoded : Step → Step
  | .value payload _ values exprs => .value payload none values exprs
  | step => step

def Step.probing (chosen : Nat → Bool) (steps : List Step) : List Step :=
  steps.mapIdx fun position step => if chosen position then step.uncoded else step

def Container.probing (chosen : Nat → Bool) (container : Container) : Container :=
  { container with steps := Step.probing chosen container.steps }

namespace Decoder

variable {operators : OperatorRegistry} {decoder after : Decoder} {position : Nat} {step : Step}
  {steps : List Step} {effect : Effect}

theorem Equipped.settles_uncoded [Extension] (equipped : Equipped operators decoder)
    (settles : decoder.Settles position step effect) :
    decoder.Settles position step.uncoded effect := by
  cases settles with
  | value loaded loaded' decoded free =>
      have found := equipped.decodeValue_none_eq_ok_iff.mpr (equipped.exists_codec decoded)
      exact .value loaded loaded' found free
  | literal loaded free => exact .literal loaded free
  | leaf key free => exact .leaf key free
  | placeholder key free => exact .placeholder key free
  | apply applied free => exact .apply applied free
  | codec vacant found => exact .codec vacant found
  | outputValue loaded => exact .outputValue loaded
  | outputExpr loaded => exact .outputExpr loaded

theorem Equipped.run_probing [Extension] (equipped : Equipped operators decoder)
    (run : Run decoder steps after) (chosen : Nat → Bool) :
    Run decoder (Step.probing chosen steps) after := by
  induction run generalizing chosen with
  | done decoder => exact .done decoder
  | @next decoder after step steps effect settles rest ih =>
      have others := ih (equipped.grow settles) fun position => chosen (position + 1)
      rw [Step.probing, List.mapIdx_cons]
      refine .next ?_ others
      cases chosen 0 with
      | true => exact equipped.settles_uncoded settles
      | false => exact settles

end Decoder

/-- Naming the codec of a value makes no difference. A container that is decoded is decoded to the
same without the codec slots of any of its steps; for there is no payload, whatever its bytes are,
that more than one of the codecs does not decline, and declining never fails. -/
theorem probing_agrees [Extension] (operators : OperatorRegistry) :
    (∀ options container decoded chosen,
      deserialize (.standard operators) options container = .ok decoded →
      deserialize (.standard operators) options (container.probing chosen) = .ok decoded) ∧
    ∀ payload, ∃ name, ∀ other decode,
      (CodecRegistry.standard operators).lookup other = .ok decode → other ≠ name →
      ∀ vs es, decode payload vs es = .ok none := by
  constructor
  · intro options container decoded chosen decodes
    obtain ⟨current, after, run, yields⟩ := Container.decode_iff_run.mp decodes
    have equipped := Decoder.equipped_start operators options
    exact Container.decode_iff_run.mpr ⟨current, after, equipped.run_probing run chosen, yields⟩
  · intro payload
    refine ⟨(Bytes.label? payload).getD "", fun other decode found apart => ?_⟩
    refine (recognises_of_lookup found).declines fun label => apart ?_
    rw [label, Option.getD_some]

theorem probing_agrees_sharing : ∃ container decoded,
    serialize (.standard .empty) Roots.sharing.values Roots.sharing.exprs = .ok container ∧
    deserialize (.standard .empty) .default container = .ok decoded ∧
    deserialize (.standard .empty) .default (container.probing fun _ => true) = .ok decoded := by
  obtain ⟨container, decoded, stored, decodes, -⟩ := Roots.exists_container .default
    Roots.faithful_sharing (Roots.intact_sharing .empty)
  exact ⟨container, decoded, stored, decodes,
    (probing_agrees .empty).1 .default container decoded (fun _ => true) decodes⟩

end ExprWire
