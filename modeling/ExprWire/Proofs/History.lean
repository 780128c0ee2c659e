import ExprWire.Proofs.Effect
/-!
Histories of a decoder. Whatever steps it is given, at whatever positions and in whatever order,
what it holds is never replaced or removed, and its codecs are those of its slots in the order in
which they were loaded.
-/

namespace ExprWire

namespace Decoder

variable {decoder before middle after : Decoder} {position : Nat} {effect : Effect}

def feed [Extension] (decoder : Decoder) (calls : List (Number × Step)) : Decoder :=
  calls.foldl (fun decoder call => (decoder.onStep call.1 call.2).2) decoder

/-- That whatever a decoder holds is still held, in its place, by a later one. -/
structure Keeps (before after : Decoder) : Prop where
  size : before.size ≤ after.size
  values : ∀ position v, (before.slot position).value = some v →
    (after.slot position).value = some v
  exprs : ∀ position e, (before.slot position).expr = some e → (after.slot position).expr = some e
  loaded : ∀ position codec, (before.slot position).codec = some codec →
    (after.slot position).codec = some codec
  codecs : before.codecs.toList <+: after.codecs.toList
  outputValues : before.outputValues <+: after.outputValues
  outputExprs : before.outputExprs <+: after.outputExprs

theorem Keeps.refl (decoder : Decoder) : Keeps decoder decoder where
  size := Nat.le_refl _
  values _ _ held := held
  exprs _ _ held := held
  loaded _ _ held := held
  codecs := List.prefix_refl _
  outputValues := List.prefix_refl _
  outputExprs := List.prefix_refl _

theorem Keeps.trans (first : Keeps before middle) (second : Keeps middle after) :
    Keeps before after where
  size := Nat.le_trans first.size second.size
  values position v held := second.values position v (first.values position v held)
  exprs position e held := second.exprs position e (first.exprs position e held)
  loaded position codec held := second.loaded position codec (first.loaded position codec held)
  codecs := first.codecs.trans second.codecs
  outputValues := first.outputValues.trans second.outputValues
  outputExprs := first.outputExprs.trans second.outputExprs

theorem keeps_opened (decoder : Decoder) (position : Nat) :
    Keeps decoder (decoder.opened position) := by
  rw [opened]
  split
  · exact .refl decoder
  · have slots := decoder.slot_push_empty
    refine { Keeps.refl decoder with size := ?_, values := ?_, exprs := ?_, loaded := ?_ }
    · rw [size_push]
      omega
    all_goals rw [slots]; exact fun _ _ held => held

theorem keeps_perform (inside : position < decoder.size)
    (fits : effect.Fits (decoder.slot position)) :
    Keeps decoder (decoder.perform position effect) := by
  have stored := slot_perform_self effect inside
  obtain ⟨values, exprs, loaded⟩ := fits.keeps
  have kept {α : Type} {part : Slot → Option α}
      (own : ∀ a, part (decoder.slot position) = some a →
        part (effect.store (decoder.slot position)) = some a)
      (other : Nat) (a : α) (held : part (decoder.slot other) = some a) :
      part ((decoder.perform position effect).slot other) = some a := by
    by_cases here : other = position
    · subst here
      rw [stored]
      exact own a held
    · rwa [slot_perform_of_ne here]
  refine ⟨Nat.le_of_eq (size_perform effect).symm, kept values, kept exprs, kept loaded, ?_, ?_, ?_⟩
  all_goals cases effect <;> simp [perform, fill]

theorem Transition.keeps [Extension] {index : Number} {step : Step} {result : Outcome Unit}
    (moved : before.Transition index step result after) : Keeps before after := by
  cases moved with
  | refused failed => exact .refl before
  | misplaced usable outside => exact { Keeps.refl before with }
  | @rejected position problem usable placed reached settled =>
      exact { before.keeps_opened position with }
  | @accepted position effect usable placed reached settles =>
      refine (before.keeps_opened position).trans (keeps_perform (lt_size_opened reached) ?_)
      rw [slot_opened]
      exact settles.fits

theorem keeps_feed [Extension] (decoder : Decoder) (calls : List (Number × Step)) :
    Keeps decoder (decoder.feed calls) := by
  induction calls generalizing decoder with
  | nil => exact .refl decoder
  | cons call calls ih => exact (decoder.transition call.1 call.2).keeps.trans (ih _)

/-- That a decoder's codecs are those of some positions, in this order, each held once, and that no
other position holds a codec. -/
structure Holders (decoder : Decoder) (positions : List Nat) : Prop where
  once : positions.Nodup
  all : ∀ position, position ∈ positions ↔ (decoder.slot position).codec ≠ none
  table : positions.map (fun position => (decoder.slot position).codec) =
    decoder.codecs.toList.map some

/-- That values and expressions are apart, and that the codec table is made of the codecs in the
slots. -/
structure Coherent (decoder : Decoder) : Prop where
  apart : ∀ position, (decoder.slot position).value = none ∨ (decoder.slot position).expr = none
  holders : ∃ positions, Holders decoder positions

theorem coherent_start (lookup : CodecLookup) (options : Options) :
    Coherent (.start lookup options) where
  apart _ := .inl rfl
  holders := ⟨[], List.nodup_nil, fun _ => by simp [slot, start, Slot.empty], rfl⟩

theorem Holders.of_slots {left right : Decoder} {positions : List Nat}
    (holders : Holders left positions)
    (slots : ∀ position, (right.slot position).codec = (left.slot position).codec)
    (codecs : right.codecs = left.codecs) : Holders right positions := by
  refine ⟨holders.once, fun position => ?_, ?_⟩
  · rw [slots]
    exact holders.all position
  · rw [codecs, ← holders.table]
    exact List.map_congr_left fun position _ => slots position

theorem Holders.load {positions : List Nat} (holders : Holders decoder positions)
    {codec : LoadedCodec} (inside : position < decoder.size)
    (vacant : (decoder.slot position).codec = none) :
    Holders (decoder.perform position (.codec codec)) (positions ++ [position]) := by
  have stored : ((decoder.perform position (.codec codec)).slot position).codec = some codec := by
    rw [slot_perform_self _ inside]
    rfl
  have fresh : position ∉ positions := fun listed => (holders.all position).mp listed vacant
  refine ⟨?_, fun other => ?_, ?_⟩
  · refine List.nodup_append.mpr ⟨holders.once, List.pairwise_singleton _ _, ?_⟩
    rintro other listed last single rfl
    exact fresh (List.mem_singleton.mp single ▸ listed)
  · rw [List.mem_append, List.mem_singleton, holders.all]
    by_cases here : other = position
    · subst here
      simp [stored]
    · rw [slot_perform_of_ne here]
      simp [here]
  · have others :
        positions.map (fun p => ((decoder.perform position (.codec codec)).slot p).codec) =
          positions.map fun p => (decoder.slot p).codec :=
      List.map_congr_left fun other listed => by
        have elsewhere : other ≠ position := fun same => fresh (same ▸ listed)
        rw [slot_perform_of_ne elsewhere]
    rw [List.map_append, others, holders.table, List.map_singleton, stored]
    simp [perform]

theorem codec_perform (uncoded : ∀ codec, effect ≠ .codec codec) (inside : position < decoder.size)
    (other : Nat) : ((decoder.perform position effect).slot other).codec =
      (decoder.slot other).codec := by
  by_cases here : other = position
  · subst here
    rw [slot_perform_self _ inside]
    cases effect with
    | codec codec => exact absurd rfl (uncoded codec)
    | _ => rfl
  · rw [slot_perform_of_ne here]

theorem Coherent.perform (coherent : Coherent decoder) (inside : position < decoder.size)
    (fits : effect.Fits (decoder.slot position)) : Coherent (decoder.perform position effect) where
  apart other := by
    by_cases here : other = position
    · subst here
      rw [slot_perform_self _ inside]
      have apart := coherent.apart other
      cases effect <;> simp_all [Effect.Fits, Effect.store, Slot.isFree]
    · rw [slot_perform_of_ne here]
      exact coherent.apart other
  holders := by
    obtain ⟨positions, holders⟩ := coherent.holders
    cases effect with
    | codec codec => exact ⟨_, holders.load inside fits⟩
    | _ => exact ⟨positions, holders.of_slots (codec_perform (by simp) inside) rfl⟩

theorem Coherent.opened (coherent : Coherent decoder) (position : Nat) :
    Coherent (decoder.opened position) := by
  have slots := decoder.slot_opened position
  obtain ⟨positions, holders⟩ := coherent.holders
  refine ⟨fun other => slots ▸ coherent.apart other, positions, holders.of_slots ?_ ?_⟩
  · exact fun other => slots ▸ rfl
  · exact (decoder.sameFrom_opened position).codecs

theorem Transition.coherent [Extension] {index : Number} {step : Step} {result : Outcome Unit}
    (moved : before.Transition index step result after) (coherent : Coherent before) :
    Coherent after := by
  cases moved with
  | refused failed => exact coherent
  | misplaced usable outside =>
      obtain ⟨positions, holders⟩ := coherent.holders
      exact ⟨coherent.apart, positions, holders.of_slots (fun _ => rfl) rfl⟩
  | @rejected position problem usable placed reached settled =>
      obtain ⟨apart, positions, holders⟩ := coherent.opened position
      exact ⟨apart, positions, holders.of_slots (fun _ => rfl) rfl⟩
  | @accepted position effect usable placed reached settles =>
      refine (coherent.opened position).perform (lt_size_opened reached) ?_
      rw [slot_opened]
      exact settles.fits

theorem Coherent.feed [Extension] (coherent : Coherent decoder) (calls : List (Number × Step)) :
    Coherent (decoder.feed calls) := by
  induction calls generalizing decoder with
  | nil => exact coherent
  | cons call calls ih => exact ih ((decoder.transition call.1 call.2).coherent coherent)

/-- How far one call goes: a slot if it is for the next position, and a codec at the end of the
table if that is what it loads. -/
structure Advances (before : Decoder) (index : Number) (step : Step) (result : Outcome Unit)
    (after : Decoder) : Prop where
  size : after.size = before.size ∨
    after.size = before.size + 1 ∧ index = .ofNat before.size
  codecs : after.codecs = before.codecs ∧ (result = .ok () → ∀ name, step ≠ .codec name) ∨
    result = .ok () ∧ ∃ position codec, index = .ofNat position ∧ step = .codec codec.name ∧
      before.lookup codec.name = .ok codec.decode ∧
      (after.slot position).codec = some codec ∧ after.codecs = before.codecs.push codec

theorem size_opened (reached : position ≤ decoder.size) :
    (decoder.opened position).size = decoder.size ∨
      (decoder.opened position).size = decoder.size + 1 ∧ position = decoder.size := by
  rw [opened]
  split
  · exact .inl rfl
  · exact .inr ⟨size_push _, by omega⟩

theorem Transition.advances [Extension] {index : Number} {step : Step} {result : Outcome Unit}
    (moved : before.Transition index step result after) :
    Advances before index step result after := by
  cases moved with
  | refused failed => exact ⟨.inl rfl, .inl ⟨rfl, nofun⟩⟩
  | misplaced usable outside => exact ⟨.inl rfl, .inl ⟨rfl, nofun⟩⟩
  | @rejected position problem usable placed reached settled =>
      have codecs := (before.sameFrom_opened position).codecs
      refine ⟨?_, .inl ⟨codecs, nofun⟩⟩
      exact (size_opened reached).imp id fun ⟨grown, last⟩ => ⟨grown, last ▸ placed⟩
  | @accepted position effect usable placed reached settles =>
      have codecs := (before.sameFrom_opened position).codecs
      constructor
      · rw [size_perform]
        exact (size_opened reached).imp id fun ⟨grown, last⟩ => ⟨grown, last ▸ placed⟩
      · cases settles with
        | @codec name decode vacant found =>
            refine .inr ⟨rfl, position, ⟨name, decode⟩, placed, rfl, found, ?_, ?_⟩
            · rw [slot_perform_self _ (lt_size_opened reached)]
              rfl
            · rw [← codecs]
              rfl
        | _ => exact .inl ⟨codecs, fun _ _ => nofun⟩

/-- The results of a decoder are final. After any calls, no slot holds both a value and an
expression, and the codec table is made of the codecs in the slots; whatever calls follow, what is
held stays. Of all decoders, a call adds at most a slot, for the next position, and at most a codec
to the table. What it comes to is the same for decoders that have the same results below its
position, the same codec table, and the same room at the position itself: it reads no other
result. -/
theorem results_final [Extension] (lookup : CodecLookup) (options : Options)
    (calls : List (Number × Step)) :
    Coherent ((start lookup options).feed calls) ∧
    (∀ later, Keeps ((start lookup options).feed calls)
      ((start lookup options).feed (calls ++ later))) ∧
    (∀ (decoder : Decoder) index step,
      Advances decoder index step (decoder.onStep index step).1 (decoder.onStep index step).2) ∧
    ∀ (left right : Decoder) position, left.failed = false → right.failed = false →
      position ≤ left.size → position ≤ right.size → SameFrom position left right →
      ∀ step, ∃ outcome,
        left.onStep (.ofNat position) step =
          (left.opened position).conclude position outcome ∧
        right.onStep (.ofNat position) step =
          (right.opened position).conclude position outcome := by
  refine ⟨(coherent_start lookup options).feed calls, fun later => ?_, ?_, ?_⟩
  · rw [feed, feed, List.foldl_append]
    exact keeps_feed _ later
  · exact fun decoder index step => (decoder.transition index step).advances
  · intro left right position usable usable' reached reached' same step
    refine ⟨left.settle position step, onStep_ofNat usable reached step, ?_⟩
    rw [same.settle]
    exact onStep_ofNat usable' reached' step

end Decoder

end ExprWire
