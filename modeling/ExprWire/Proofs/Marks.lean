import ExprWire.Proofs.Lockstep
import ExprWire.Proofs.RoundTrip
/-!
Decoding without byte order marks. If the keys of a container's steps lose a leading mark, so do the
keys of what is decoded, and nothing else changes: no codec looks into a key, and no attribute
depends on one.
-/

namespace ExprWire

namespace Expr

mutual

def unmarked : Expr → Expr
  | .leaf key => .leaf (Text.dropMark key)
  | .placeholder key => .placeholder (Text.dropMark key)
  | .apply op deps attributes => .apply op (unmarkedAll deps) attributes
  | .literal v => .literal v

def unmarkedAll : List Expr → List Expr
  | [] => []
  | e :: es => unmarked e :: unmarkedAll es

end

theorem unmarkedAll_eq (es : List Expr) : unmarkedAll es = es.map unmarked := by
  induction es with
  | nil => rfl
  | cons e es ih => rw [unmarkedAll, ih, List.map_cons]

theorem attributes_unmarked (e : Expr) : e.unmarked.attributes = e.attributes := by
  cases e <;> rfl

def Unmarked (e : Expr) : Prop := ∀ part ∈ e.parts, ∀ key ∈ part.key?, Text.Unmarked key

theorem Unmarked.dep {e dep : Expr} (plain : e.Unmarked) (direct : dep ∈ e.deps) :
    dep.Unmarked := by
  intro part inside
  exact plain part (mem_parts_of_dep direct inside)

theorem unmarked_eq_self {e : Expr} (plain : e.Unmarked) : e.unmarked = e := by
  induction e using byDeps with
  | step e ih =>
      cases e with
      | literal v => rfl
      | leaf key =>
          have own := plain _ (self_mem_parts _) key rfl
          exact congrArg leaf (Text.dropMark_eq_self_iff.mpr own)
      | placeholder key =>
          have own := plain _ (self_mem_parts _) key rfl
          exact congrArg placeholder (Text.dropMark_eq_self_iff.mpr own)
      | apply op deps attributes =>
          have same : deps.map unmarked = deps.map id :=
            List.map_congr_left fun dep direct => ih dep direct (plain.dep direct)
          rw [unmarked, unmarkedAll_eq, same, List.map_id]

theorem unmarked_of_plain_eq {e : Expr} (same : e.unmarked.plain = e.plain) : e.Unmarked := by
  induction e using byDeps with
  | step e ih =>
      intro part inside key held
      rcases mem_parts_iff.mp inside with own | ⟨dep, direct, within⟩
      · subst own
        cases part with
        | leaf _ =>
            rw [← Option.some.inj held]
            exact Text.dropMark_eq_self_iff.mp (leaf.inj same)
        | placeholder _ =>
            rw [← Option.some.inj held]
            exact Text.dropMark_eq_self_iff.mp (placeholder.inj same)
        | _ => exact absurd held nofun
      · cases e with
        | apply op deps attributes =>
            have nested := (apply.inj same).2.1
            rw [unmarkedAll_eq, plainAll_eq, plainAll_eq, List.map_map] at nested
            exact ih dep direct (List.map_inj_left.mp nested dep direct) part within key held
        | _ => exact absurd direct List.not_mem_nil

end Expr

theorem CodecRegistry.dropMark_of_lookup {operators : OperatorRegistry} {name : String}
    {decode : ValueDecoder} (found : (standard operators).lookup name = .ok decode) :
    Text.dropMark name = name :=
  lookup_standard found (motive := fun name _ => Text.dropMark name = name)
    ScalarCodec.plain_name TupleCodec.plain_name OperatorCodec.plain_name

namespace Decoder

variable {operators : OperatorRegistry} {decoder after : Decoder} {step : Step} {steps : List Step}
  {effect : Effect}

theorem Equipped.alike_unmarked [Extension] (equipped : Equipped operators decoder)
    (settles : decoder.Settles decoder.size step effect) :
    Step.Alike (fun d e => d.unmarked = e) step step.unmarked ∧ step.Formed := by
  cases settles with
  | leaf key free => exact ⟨.leaf rfl, trivial⟩
  | placeholder key free => exact ⟨.placeholder rfl, trivial⟩
  | @codec name decode vacant found =>
      rw [equipped.lookup] at found
      rw [Step.unmarked, CodecRegistry.dropMark_of_lookup found]
      exact ⟨.unkeyed rfl, trivial⟩
  | _ => exact ⟨.unkeyed rfl, trivial⟩

theorem Equipped.run_alike_unmarked [Extension] (equipped : Equipped operators decoder)
    (run : Run decoder steps after) :
    List.Forall₂ (Step.Alike fun d e => d.unmarked = e) steps (steps.map Step.unmarked) ∧
      ∀ step ∈ steps, step.Formed := by
  induction run with
  | done decoder => exact ⟨.nil, fun _ present => absurd present List.not_mem_nil⟩
  | next settles rest ih =>
      obtain ⟨alike, formed⟩ := equipped.alike_unmarked settles
      obtain ⟨others, formed'⟩ := ih (equipped.grow settles)
      exact ⟨.cons alike others, List.forall_mem_cons.mpr ⟨formed, formed'⟩⟩

end Decoder

def Decoded.unmarked (decoded : Decoded) : Decoded :=
  ⟨decoded.values, decoded.exprs.map Expr.unmarked⟩

theorem Options.application_unmarked [Extension] {options : Options} {op : Operator}
    {deps : List Expr} {e : Expr} (made : options.application op deps = .ok e) :
    options.application op (deps.map Expr.unmarked) = .ok e.unmarked := by
  have attributes : (deps.map Expr.unmarked).map Expr.attributes = deps.map Expr.attributes := by
    rw [List.map_map]
    exact List.map_congr_left fun dep _ => dep.attributes_unmarked
  obtain ⟨counted, rfl⟩ := application_eq_ok_iff.mp made
  refine application_eq_ok_iff.mpr ⟨fun safe => ?_, ?_⟩
  · rw [List.length_map]
    exact counted safe
  · rw [Expr.unmarked, Expr.unmarkedAll_eq, attributes]

theorem Container.decode_unmarked [Extension] {operators : OperatorRegistry} {options : Options}
    {container : Container} {decoded : Decoded}
    (decodes : container.decode (CodecRegistry.standard operators).lookup options = .ok decoded) :
    container.unmarked.decode (CodecRegistry.standard operators).lookup options =
        .ok decoded.unmarked ∧ container.Formed := by
  obtain ⟨current, after, run, yields⟩ := decode_iff_run.mp decodes
  obtain ⟨similar, formed⟩ :=
    (Decoder.equipped_start operators options).run_alike_unmarked run
  obtain ⟨decoded', -, decodes', -, -, values, exprs⟩ :=
    decode_follows options similar (fun _ => rfl) current run yields (by
      intro operator deps op ds es d present held count same made
      obtain rfl := map_eq_of_forall₂ same
      exact ⟨_, Options.application_unmarked made, rfl⟩)
  have same : decoded' = decoded.unmarked := by
    rw [Decoded.unmarked, values, map_eq_of_forall₂ exprs]
  exact ⟨same ▸ decodes', formed⟩

end ExprWire
