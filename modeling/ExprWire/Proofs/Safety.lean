import ExprWire.Proofs.Bare
import ExprWire.Proofs.Lockstep
import ExprWire.Proofs.RoundTrip
/-!
Safe decoding. Checking the counts of dependencies rejects containers and does nothing else: what is
decoded under two settings of the options is the same but for the attributes of applications.
-/

namespace ExprWire

variable {lookup : CodecLookup} {operators : OperatorRegistry} {options : Options}
  {container : Container} {decoded : Decoded}

def Options.Plain (options : Options) : Prop :=
  options.safe = false ∨ options.inferAttributes = false

/-- That every application among some steps has as many dependencies as the operator takes that it
refers to. -/
def Decoder.Counts (decoder : Decoder) (steps : List Step) : Prop :=
  ∀ operator deps, .apply operator deps ∈ steps →
    ∃ op, decoder.ValueAt operator (.operator op) ∧ op.signature.arity.accepts deps.length = true

open Decoder (Run Lockstep ValueAt Counts)

theorem Decoder.Run.counts [Extension] {decoder after : Decoder} {steps : List Step}
    (run : Run decoder steps after) (safe : decoder.options.safe = true) : after.Counts steps := by
  induction run with
  | done decoder => exact fun _ _ present => absurd present List.not_mem_nil
  | @next decoder after step steps effect settles rest ih =>
      intro operator deps present
      rcases List.mem_cons.mp present with rfl | later
      · cases settles with
        | apply applied free =>
            obtain ⟨op, loaded, ds, loaded', made⟩ := applyOperator_eq_ok_iff.mp applied
            have counted := (Options.application_eq_ok_iff.mp made).1 safe
            rw [(mapM_eq_ok_iff.mp loaded').length_eq.symm] at counted
            exact ⟨op, (keeps_grow _).trans rest.keeps |>.valueAt
              (loadValue_size_eq_ok_iff.mp loaded), counted⟩
      · exact ih ((options_grow _).symm ▸ safe) operator deps later

theorem Decoder.Lockstep.counts {alike : Expr → Expr → Prop} {left right : Decoder}
    {steps : List Step} (lockstep : Lockstep alike left right) (counts : left.Counts steps) :
    right.Counts steps := by
  intro operator deps present
  obtain ⟨op, held, counted⟩ := counts operator deps present
  exact ⟨op, lockstep.valueAt held, counted⟩

theorem Decoder.ValueAt.unique {decoder : Decoder} {index : Number} {u v : Value}
    (left : decoder.ValueAt index u) (right : decoder.ValueAt index v) : u = v := by
  obtain ⟨position, rfl, held⟩ := left
  exact Option.some.inj (held.symm.trans (Decoder.valueAt_ofNat.mp right))

namespace Container

theorem decode_unchecked [Extension] (infer : Bool)
    (decodes : container.decode (CodecRegistry.standard operators).lookup options = .ok decoded) :
    ∃ plain after,
      container.decode (CodecRegistry.standard operators).lookup ⟨false, infer⟩ = .ok plain ∧
      Run (.start (CodecRegistry.standard operators).lookup ⟨false, infer⟩) container.steps after ∧
      (options.safe = true → after.Counts container.steps) ∧ decoded.values = plain.values ∧
      decoded.exprs.map Expr.bare = plain.exprs ∧
      (options.Plain → decoded.exprs = plain.exprs) := by
  obtain ⟨current, final, run, yields⟩ := decode_iff_run.mp decodes
  have likeness : Likeness fun d e => d.bare = e ∧ (options.Plain → d = e) :=
    ⟨fun _ => ⟨rfl, fun _ => rfl⟩, fun _ => ⟨rfl, fun _ => rfl⟩, fun _ => ⟨rfl, fun _ => rfl⟩⟩
  have split {ds es : List Expr}
      (same : List.Forall₂ (fun d e => d.bare = e ∧ (options.Plain → d = e)) ds es) :
      ds.map Expr.bare = es ∧ (options.Plain → ds = es) := by
    refine ⟨map_eq_of_forall₂ (same.imp fun _ _ => And.left), fun plain => ?_⟩
    have equal : List.Forall₂ Eq ds es := same.imp fun _ _ held => held.2 plain
    rwa [List.forall₂_eq_eq_eq] at equal
  obtain ⟨plain, after, decodes', run', lockstep, values, exprs⟩ :=
    decode_follows ⟨false, infer⟩ (likeness.steps _) likeness.literal current run yields (by
      intro operator deps op ds es d present held count same made
      obtain ⟨-, rfl⟩ := Options.application_eq_ok_iff.mp made
      obtain ⟨bare, equal⟩ := split same
      refine ⟨.apply op es .unknown, rfl, ?_, fun plain => ?_⟩
      · rw [Expr.bare, Expr.bareAll_eq, bare]
      · have uninferred : ¬(options.safe = true ∧ options.inferAttributes = true) := by
          rintro ⟨safe, inferred⟩
          rcases plain with unchecked | uninferred
          · exact Bool.false_ne_true (unchecked.symm.trans safe)
          · exact Bool.false_ne_true (uninferred.symm.trans inferred)
        rw [if_neg uninferred, equal plain])
  exact ⟨plain, after, decodes', run', fun safe => lockstep.counts (run.counts safe), values,
    split exprs⟩

theorem exists_decode_safe [Extension] (infer infer' : Bool) {after : Decoder}
    (decodes : container.decode (CodecRegistry.standard operators).lookup ⟨false, infer'⟩ =
      .ok decoded)
    (run : Run (.start (CodecRegistry.standard operators).lookup ⟨false, infer'⟩) container.steps
      after)
    (counts : after.Counts container.steps) :
    ∃ safe,
      container.decode (CodecRegistry.standard operators).lookup ⟨true, infer⟩ = .ok safe := by
  obtain ⟨current, final, run', yields⟩ := decode_iff_run.mp decodes
  obtain rfl := run'.unique rfl run
  have likeness : Likeness fun d e => d.bare = e.bare :=
    ⟨fun _ => rfl, fun _ => rfl, fun _ => rfl⟩
  obtain ⟨safe, -, decodes', -⟩ := decode_follows ⟨true, infer⟩ (likeness.steps _)
    likeness.literal current run' yields (by
      intro operator deps op ds es d present held count same made
      obtain ⟨-, rfl⟩ := Options.application_eq_ok_iff.mp made
      obtain ⟨other, held', counted⟩ := counts operator deps present
      obtain rfl : other = op := Value.operator.inj (held'.unique held)
      rw [← count, same.length_eq] at counted
      have bare : ds.map Expr.bare = es.map Expr.bare :=
        map_eq_of_forall₂ (List.forall₂_map_right_iff.mpr same)
      refine ⟨_, Options.application_eq_ok_iff.mpr ⟨fun _ => counted, rfl⟩, ?_⟩
      rw [Expr.bare, Expr.bare, Expr.bareAll_eq, Expr.bareAll_eq, bare])
  exact ⟨safe, decodes'⟩

end Container

/-- Checking the counts of dependencies does nothing but reject. With checks a container is decoded
exactly if it is without them and every application has as many dependencies as the operator takes
that it refers to. What is decoded under two settings of the options is the same but for the
attributes of applications, of which there are none unless decoding is safe and infers them. -/
theorem safety_filters [Extension] (operators : OperatorRegistry) (container : Container) :
    (∀ infer infer',
      (∃ decoded, deserialize (.standard operators) ⟨true, infer⟩ container = .ok decoded) ↔
        ∃ decoded decoder,
          deserialize (.standard operators) ⟨false, infer'⟩ container = .ok decoded ∧
          (Decoder.start (CodecRegistry.standard operators).lookup ⟨false, infer'⟩).replaySteps 0
            container.steps = .ok decoder ∧
          decoder.Counts container.steps) ∧
    ∀ options decoded, deserialize (.standard operators) options container = .ok decoded →
      (∀ options' decoded', deserialize (.standard operators) options' container = .ok decoded' →
        decoded.values = decoded'.values ∧
        decoded.exprs.map Expr.bare = decoded'.exprs.map Expr.bare ∧
        decoded.exprs.map Expr.fingerprint = decoded'.exprs.map Expr.fingerprint) ∧
      (options.safe = false ∨ options.inferAttributes = false →
        ∀ e ∈ decoded.exprs, ∀ op deps attributes, .apply op deps attributes ∈ e.parts →
          attributes = .unknown) := by
  refine ⟨fun infer infer' => ⟨?_, ?_⟩, fun options decoded decodes => ⟨?_, ?_⟩⟩
  · rintro ⟨decoded, decodes⟩
    obtain ⟨plain, after, decodes', run, counts, -⟩ := Container.decode_unchecked infer' decodes
    exact ⟨plain, after, decodes', (Decoder.replaySteps_eq_ok_iff rfl).mpr run, counts rfl⟩
  · rintro ⟨decoded, decoder, decodes, replayed, counts⟩
    have run := (Decoder.replaySteps_eq_ok_iff rfl).mp replayed
    exact Container.exists_decode_safe infer infer' decodes run counts
  · intro options' decoded' decodes'
    obtain ⟨plain, -, direct, -, -, values, exprs, -⟩ := Container.decode_unchecked true decodes
    obtain ⟨plain', -, direct', -, -, values', exprs', -⟩ :=
      Container.decode_unchecked true decodes'
    obtain rfl : plain = plain' := Except.ok.inj (direct.symm.trans direct')
    have bare := exprs.trans exprs'.symm
    exact ⟨values.trans values'.symm, bare, Expr.fingerprints_eq_of_bare bare⟩
  · intro plain e root
    obtain ⟨_, _, -, -, -, -, bare, equal⟩ := Container.decode_unchecked true decodes
    have same := bare.trans (equal plain).symm
    exact Expr.bare_eq_self_iff.mp (List.map_inj_left.mp (same.trans (List.map_id _).symm) e root)

theorem safety_filters_sharing : ∃ container checked unchecked,
    serialize (.standard .empty) Roots.sharing.values Roots.sharing.exprs = .ok container ∧
    deserialize (.standard .empty) ⟨true, true⟩ container = .ok checked ∧
    deserialize (.standard .empty) ⟨false, false⟩ container = .ok unchecked ∧
    checked.values = unchecked.values ∧
    checked.exprs.map Expr.bare = unchecked.exprs.map Expr.bare ∧
    checked.exprs.map Expr.fingerprint = unchecked.exprs.map Expr.fingerprint := by
  obtain ⟨container, checked, stored, decodes, -⟩ := Roots.exists_container ⟨true, true⟩
    Roots.faithful_sharing (Roots.intact_sharing .empty)
  have filters := safety_filters .empty container
  obtain ⟨unchecked, -, decodes', -⟩ := (filters.1 true false).mp ⟨checked, decodes⟩
  exact ⟨container, checked, unchecked, stored, decodes, decodes',
    (filters.2 _ checked decodes).1 _ unchecked decodes'⟩

end ExprWire
