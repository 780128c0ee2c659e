import ExprWire.Container.Binary
import ExprWire.Proofs.Outcome
import ExprWire.Proofs.Spelling
/-!
The binary form of containers. A container is written exactly if its lengths and positions have 32
bits, and what is read back differs from it in nothing but leading byte order marks of its strings.
-/

namespace ExprWire

open Buffer (Writes Refuses)
open Reader (Reads Finishes)

def Number.AllFit (xs : List Number) : Prop :=
  xs.length ≤ Varint.limit ∧ ∀ x ∈ xs, x.Fits

instance (xs : List Number) : Decidable (Number.AllFit xs) := inferInstanceAs (Decidable (_ ∧ _))

def Spelling.slot : Option Number → Bytes
  | none => [0]
  | some index => [1] ++ Spelling.number index

namespace Step

def spelling : Step → Bytes
  | .codec name => [1] ++ Spelling.text name
  | .value payload slot values exprs =>
      [2] ++ (Spelling.blob payload ++
        (Spelling.slot slot ++ (Spelling.numbers values ++ Spelling.numbers exprs)))
  | .literal index => [3] ++ Spelling.number index
  | .leaf key => [4] ++ Spelling.text key
  | .placeholder key => [5] ++ Spelling.text key
  | .apply operator deps => [6] ++ (Spelling.number operator ++ Spelling.numbers deps)
  | .outputValue index => [7] ++ Spelling.number index
  | .outputExpr index => [8] ++ Spelling.number index
  | .malformed _ => []

/-- Whether every length and every position has 32 bits. -/
def Fits : Step → Prop
  | .codec text | .leaf text | .placeholder text => (Text.utf8 text).length ≤ Varint.limit
  | .value payload slot values exprs =>
      payload.length ≤ Varint.limit ∧ (∀ index ∈ slot, index.Fits) ∧ Number.AllFit values ∧
        Number.AllFit exprs
  | .literal index | .outputValue index | .outputExpr index => index.Fits
  | .apply operator deps => operator.Fits ∧ Number.AllFit deps
  | .malformed _ => True

def Formed : Step → Prop
  | .malformed _ => False
  | _ => True

/-- The step as it is read back: its strings lose a leading byte order mark. -/
def unmarked : Step → Step
  | .codec name => .codec (Text.dropMark name)
  | .leaf key => .leaf (Text.dropMark key)
  | .placeholder key => .placeholder (Text.dropMark key)
  | step => step

end Step

namespace Step

theorem writes {step : Step} (fits : step.Fits) : Writes step.write step.spelling := by
  cases step with
  | codec text | leaf text | placeholder text => exact (Buffer.writes_text fits).behind _
  | literal index | outputValue index | outputExpr index =>
      exact (Buffer.writes_varint fits).behind _
  | malformed kind => exact Buffer.writes_nothing
  | apply operator deps =>
      rcases fits with ⟨fits, short, all⟩
      exact ((Buffer.writes_varint fits).andThen (Buffer.writes_varints short all)).behind _
  | value payload slot values exprs =>
      rcases fits with ⟨short, slotFits, ⟨few, all⟩, ⟨few', all'⟩⟩
      have lists := (Buffer.writes_varints few all).andThen (Buffer.writes_varints few' all')
      refine ((Buffer.writes_blob short).andThen ?_).behind 2
      cases slot with
      | none => exact (Buffer.writes_byte 0).andThen lists
      | some index =>
          exact ((Buffer.writes_varint (slotFits index rfl)).behind 1).andThen lists

theorem refuses {step : Step} (unfit : ¬step.Fits) : Refuses step.write := by
  cases step with
  | codec text | leaf text | placeholder text => exact (Buffer.refuses_blob unfit).behind _
  | literal index | outputValue index | outputExpr index =>
      exact (Buffer.refuses_varint unfit).behind _
  | malformed kind => exact absurd trivial unfit
  | apply operator deps =>
      by_cases first : operator.Fits
      · have others : ¬Number.AllFit deps := fun held => unfit ⟨first, held⟩
        exact ((Buffer.writes_varint first).andRefuses (Buffer.refuses_varints others)).behind _
      · exact (Buffer.refuses_varint first).andThen.behind _
  | value payload slot values exprs =>
      by_cases short : payload.length ≤ Varint.limit
      · refine ((Buffer.writes_blob short).andRefuses ?_).behind 2
        have lists (fits : ∀ index ∈ slot, index.Fits) :
            Refuses fun buffer => buffer.varints values >>= (·.varints exprs) := by
          by_cases first : Number.AllFit values
          · have others : ¬Number.AllFit exprs := fun held => unfit ⟨short, fits, first, held⟩
            exact (Buffer.writes_varints first.1 first.2).andRefuses (Buffer.refuses_varints others)
          · exact (Buffer.refuses_varints first).andThen
        cases slot with
        | none => exact (Buffer.writes_byte 0).andRefuses (lists nofun)
        | some index =>
            by_cases fits : index.Fits
            · refine ((Buffer.writes_varint fits).behind 1).andRefuses (lists ?_)
              intro other same
              rw [← Option.some.inj same]
              exact fits
            · exact ((Buffer.refuses_varint fits).behind 1).andThen
      · exact (Buffer.refuses_blob short).andThen.behind 2

theorem writes_all {steps : List Step} (position : Nat) (fits : ∀ step ∈ steps, step.Fits) :
    Writes (writeAll · position steps) (steps.flatMap spelling) := by
  induction steps generalizing position with
  | nil => exact Buffer.writes_nothing
  | cons step steps ih =>
      have first := (writes (fits step List.mem_cons_self)).annotated (.writingStep position)
      exact first.andThen (ih (position + 1) fun other present =>
        fits other (List.mem_cons_of_mem _ present))

theorem refuses_all {steps : List Step} (position : Nat) (unfit : ∃ step ∈ steps, ¬step.Fits) :
    Refuses (writeAll · position steps) := by
  induction steps generalizing position with
  | nil =>
      rcases unfit with ⟨step, present, -⟩
      exact absurd present List.not_mem_nil
  | cons step steps ih =>
      by_cases fits : step.Fits
      · refine ((writes fits).annotated (.writingStep position)).andRefuses (ih (position + 1) ?_)
        rcases unfit with ⟨other, present, wrong⟩
        rcases List.mem_cons.mp present with rfl | later
        · exact absurd fits wrong
        · exact ⟨other, later, wrong⟩
      · exact ((refuses fits).annotated (.writingStep position)).andThen

theorem spelling_ne_nil {step : Step} (formed : step.Formed) : step.spelling ≠ [] := by
  cases step with
  | malformed kind => exact formed.elim
  | _ => exact List.cons_ne_nil _ _

theorem length_le_flatMap_spelling {steps : List Step} (formed : ∀ step ∈ steps, step.Formed) :
    steps.length ≤ (steps.flatMap spelling).length := by
  induction steps with
  | nil => exact Nat.le_refl _
  | cons step steps ih =>
      have := List.length_pos_iff.mpr (spelling_ne_nil (formed step List.mem_cons_self))
      have := ih fun other present => formed other (List.mem_cons_of_mem _ present)
      rw [List.flatMap_cons, List.length_append, List.length_cons]
      omega

theorem reads_codecSlot {slot : Option Number} (fits : ∀ index ∈ slot, index.Fits) :
    Reads Reader.codecSlot (Spelling.slot slot) slot := by
  cases slot with
  | none => exact (Reader.reads_byte 0).bind (Reads.pure none)
  | some index =>
      have slotFits := fits index rfl
      rcases slotFits.exists_nat with ⟨n, -, rfl, -⟩
      exact (Reader.reads_byte 1).bind (Reader.reads_number slotFits).map

theorem reads {step : Step} (fits : step.Fits) (formed : step.Formed) :
    Reads Step.read step.spelling step.unmarked := by
  cases step with
  | codec name => exact (Reader.reads_byte 1).bind (Reader.reads_text fits).map
  | leaf key => exact (Reader.reads_byte 4).bind (Reader.reads_text fits).map
  | placeholder key => exact (Reader.reads_byte 5).bind (Reader.reads_text fits).map
  | literal index =>
      rcases Number.Fits.exists_nat fits with ⟨n, -, rfl, -⟩
      exact (Reader.reads_byte 3).bind (Reader.reads_number fits).map
  | outputValue index =>
      rcases Number.Fits.exists_nat fits with ⟨n, -, rfl, -⟩
      exact (Reader.reads_byte 7).bind (Reader.reads_number fits).map
  | outputExpr index =>
      rcases Number.Fits.exists_nat fits with ⟨n, -, rfl, -⟩
      exact (Reader.reads_byte 8).bind (Reader.reads_number fits).map
  | malformed kind => exact formed.elim
  | apply operator deps =>
      rcases fits with ⟨fits, short, all⟩
      rcases fits.exists_nat with ⟨n, -, rfl, -⟩
      exact (Reader.reads_byte 6).bind
        ((Reader.reads_number fits).bind (Reader.reads_varints short all).map)
  | value payload slot values exprs =>
      rcases fits with ⟨short, slotFits, ⟨few, all⟩, ⟨few', all'⟩⟩
      exact (Reader.reads_byte 2).bind ((Reader.reads_blob short).bind
        ((reads_codecSlot slotFits).bind ((Reader.reads_varints few all).bind
          (Reader.reads_varints few' all').map)))

theorem reads_all {steps : List Step} (position : Nat) (fits : ∀ step ∈ steps, step.Fits)
    (formed : ∀ step ∈ steps, step.Formed) :
    Reads (readAll steps.length position) (steps.flatMap spelling) (steps.map unmarked) := by
  induction steps generalizing position with
  | nil => exact Reads.pure []
  | cons step steps ih =>
      have first := reads (fits step List.mem_cons_self) (formed step List.mem_cons_self)
      have others := ih (position + 1)
        (fun other present => fits other (List.mem_cons_of_mem _ present))
        (fun other present => formed other (List.mem_cons_of_mem _ present))
      exact (first.noting _).bind (others.map (f := (step.unmarked :: ·)))

end Step

namespace Container

/-- Whether a container has a version, and every number and every length in it has 32 bits. -/
structure Fits (container : Container) : Prop where
  version : ∃ version, container.version = some version ∧ version.Fits
  count : container.steps.length ≤ Varint.limit
  steps : ∀ step ∈ container.steps, step.Fits
  outputValues : Number.AllFit container.outputValues
  outputExprs : Number.AllFit container.outputExprs

def Formed (container : Container) : Prop := ∀ step ∈ container.steps, step.Formed

def unmarked (container : Container) : Container :=
  { container with steps := container.steps.map Step.unmarked }

def spelling (container : Container) : Bytes :=
  Spelling.number (container.version.getD currentVersion) ++
    (Varint.encode container.steps.length ++ (container.steps.flatMap Step.spelling ++
      (Spelling.numbers container.outputValues ++ Spelling.numbers container.outputExprs)))

def trailer (bytes : Bytes) : Bytes := Bytes.littleEndian 4 (Crc32.checksum bytes).toNat

variable {container : Container}

theorem writes_body (fits : container.Fits) :
    Writes container.writeBody (magic ++ container.spelling) := by
  rcases fits.version with ⟨version, present, versionFits⟩
  have lists := (Buffer.writes_varints fits.outputValues.1 fits.outputValues.2).andThen
    (Buffer.writes_varints fits.outputExprs.1 fits.outputExprs.2)
  have count := Buffer.writes_varint (Number.fits_ofNat.mpr fits.count)
  rw [Spelling.number_ofNat fits.count] at count
  have body := (Buffer.writes_append magic).andThen ((Buffer.writes_varint versionFits).andThen
    (count.andThen ((Step.writes_all 0 fits.steps).andThen lists)))
  intro buffer
  rcases body buffer with ⟨after, run, content⟩
  refine ⟨after, ?_, ?_⟩
  · change writeBody buffer container = .ok after
    rw [writeBody, present]
    exact run
  · rw [content, spelling, present, Option.getD_some]

theorem refuses_body (unfit : ¬container.Fits) : Refuses container.writeBody := by
  intro buffer
  change ∃ fault, writeBody buffer container = .error (.fault fault) ∧ fault.status = .invalidArgument
  rw [writeBody]
  cases present : container.version with
  | none => exact ⟨⟨.missingVersion, []⟩, rfl, rfl⟩
  | some version =>
      refine (?_ : Refuses fun buffer => (buffer.append magic).varint version >>= fun buffer =>
        buffer.varint container.steps.length >>= fun buffer =>
          Step.writeAll buffer 0 container.steps >>= fun buffer =>
            buffer.varints container.outputValues >>= (·.varints container.outputExprs)) buffer
      have behindMagic {write : Buffer → Outcome Buffer} (refuses : Refuses write) :
          Refuses fun buffer => write (buffer.append magic) :=
        (Buffer.writes_append magic).andRefuses refuses
      by_cases versionFits : version.Fits
      · refine behindMagic ((Buffer.writes_varint versionFits).andRefuses ?_)
        by_cases count : container.steps.length ≤ Varint.limit
        · refine (Buffer.writes_varint (Number.fits_ofNat.mpr count)).andRefuses ?_
          by_cases steps : ∀ step ∈ container.steps, step.Fits
          · refine (Step.writes_all 0 steps).andRefuses ?_
            by_cases values : Number.AllFit container.outputValues
            · refine (Buffer.writes_varints values.1 values.2).andRefuses
                (Buffer.refuses_varints fun exprs => unfit ?_)
              exact ⟨⟨version, present, versionFits⟩, count, steps, values, exprs⟩
            · exact (Buffer.refuses_varints values).andThen
          · exact (Step.refuses_all 0 (by
              simpa only [Classical.not_forall, exists_prop] using steps)).andThen
        · exact (Buffer.refuses_varint fun fits => count (Number.fits_ofNat.mp fits)).andThen
      · exact behindMagic (Buffer.refuses_varint versionFits).andThen

theorem write_eq (fits : container.Fits) :
    container.write =
      .ok ((magic ++ container.spelling) ++ trailer (magic ++ container.spelling)) := by
  obtain ⟨body, run, content⟩ : ∃ body, writeBody (.withCapacity 1024) container = .ok body ∧
    body.bytes = _ := writes_body fits _
  rw [Buffer.bytes_withCapacity, List.nil_append] at content
  have checksum (n : Nat) (small : n < 4294967296) :
      ((n : Int) % (1 <<< (8 * 4) : Nat)).toNat = n := by
    have power : (1 <<< (8 * 4) : Nat) = 4294967296 := rfl
    rw [power]
    omega
  rw [write, run]
  change Except.ok (body.int 4 (Crc32.checksum body.bytes).toNat).bytes = _
  rw [Buffer.int, Buffer.bytes_append, checksum _ (Crc32.checksum body.bytes).toNat_lt, content,
    trailer]

theorem write_refused (unfit : ¬container.Fits) :
    ∃ fault, container.write = .error (.fault fault) ∧ fault.status = .invalidArgument := by
  obtain ⟨fault, run, status⟩ : ∃ fault, writeBody (.withCapacity 1024) container =
    .error (.fault fault) ∧ fault.status = .invalidArgument := refuses_body unfit _
  refine ⟨fault, ?_, status⟩
  rw [write, run]
  rfl

theorem write_isOk_iff : (∃ bytes, container.write = .ok bytes) ↔ container.Fits := by
  by_cases fits : container.Fits
  · exact ⟨fun _ => fits, fun _ => ⟨_, write_eq fits⟩⟩
  · refine ⟨fun ⟨bytes, written⟩ => ?_, fun held => absurd held fits⟩
    rcases write_refused fits with ⟨fault, refused, -⟩
    exact absurd (written.symm.trans refused) nofun

theorem finishes_body (fits : container.Fits) (formed : container.Formed) :
    Finishes readBody container.spelling container.unmarked := by
  rcases fits.version with ⟨version, present, versionFits⟩
  rcases versionFits.exists_nat with ⟨n, -, rfl, -⟩
  have values := Reader.reads_varints fits.outputValues.1 fits.outputValues.2
  have exprs := Reader.reads_varints fits.outputExprs.1 fits.outputExprs.2
  have result : container.unmarked = ⟨some (.ofNat n), container.steps.map Step.unmarked,
      container.outputValues, container.outputExprs⟩ := by
    rw [unmarked, present]
  rw [spelling, present, Option.getD_some, result]
  have enough : container.steps.length ≤ (container.steps.flatMap Step.spelling ++
      (Spelling.numbers container.outputValues ++ Spelling.numbers container.outputExprs)).length := by
    have := Step.length_le_flatMap_spelling formed
    rw [List.length_append]
    omega
  refine (Reader.reads_number versionFits).finish ((Reader.reads_varint fits.count).finish
    (Finishes.guarded ?_ enough))
  have last : Finishes (do
      let outputExprs ← Reader.noting .readingOutputExprs Reader.varints
      Reader.expectEnd
      return ⟨some (.ofNat n), container.steps.map Step.unmarked, container.outputValues,
        outputExprs⟩ : Reader Container) (Spelling.numbers container.outputExprs ++ [])
      ⟨some (.ofNat n), container.steps.map Step.unmarked, container.outputValues,
        container.outputExprs⟩ :=
    (exprs.noting .readingOutputExprs).finish
      (Reader.finishes_end (Reader.finishes_pure _))
  rw [List.append_nil] at last
  exact (Step.reads_all 0 fits.steps formed).finish
    ((values.noting .readingOutputValues).finish last)

theorem length_trailer (bytes : Bytes) : (trailer bytes).length = 4 := Bytes.length_littleEndian 4 _

def sealed (body : Bytes) : Bytes := (magic ++ body) ++ trailer (magic ++ body)

theorem length_sealed (body : Bytes) : (sealed body).length = (magic ++ body).length + 4 := by
  rw [sealed, List.length_append, length_trailer]

theorem ofLittleEndian_trailer (bytes : Bytes) :
    Bytes.ofLittleEndian (trailer bytes) = (Crc32.checksum bytes).toNat :=
  Bytes.ofLittleEndian_littleEndian_of_lt (Crc32.checksum bytes).toNat_lt

theorem read_sealed (body : Bytes) : Container.read (sealed body) = readBody.parse body := by
  have start : (sealed body).take 4 = magic := by
    rw [sealed, List.append_assoc]
    exact List.take_left' rfl
  have long : ¬(sealed body).length < 8 := by
    have four : magic.length = 4 := rfl
    rw [length_sealed, List.length_append]
    omega
  have size : (sealed body).length - 4 = (magic ++ body).length := by
    rw [length_sealed, Nat.add_sub_cancel]
  have front : (sealed body).take (magic ++ body).length = magic ++ body := List.take_left
  have back : (sealed body).drop (magic ++ body).length = trailer (magic ++ body) := List.drop_left
  rw [Container.read, if_neg (not_not_intro start), if_neg long]
  simp only [size, front, back, ofLittleEndian_trailer]
  rw [if_neg (fun different => different rfl)]
  rfl

theorem refuses_unsealed {bytes : Bytes} (unsealed : ¬∃ body, bytes = sealed body) :
    ∃ cause, Container.read bytes = .error (.of cause) ∧ cause.OfInput := by
  rw [Container.read]
  split
  · exact ⟨.badMagic, rfl, rfl⟩
  · rename_i start
    have start := Classical.not_not.mp start
    split
    · exact ⟨.truncatedContainer, rfl, rfl⟩
    · rename_i long
      refine ⟨.wrongChecksum, ?_, rfl⟩
      refine if_pos fun same => unsealed ⟨(bytes.take (bytes.length - 4)).drop 4, ?_⟩
      have front : magic ++ (bytes.take (bytes.length - 4)).drop 4 =
          bytes.take (bytes.length - 4) := by
        have first : (bytes.take (bytes.length - 4)).take 4 = magic := by
          rw [List.take_take, Nat.min_eq_left (by omega), start]
        rw [← first, List.take_append_drop]
      have size : (bytes.drop (bytes.length - 4)).length = 4 := by
        rw [List.length_drop]
        omega
      have back : trailer (bytes.take (bytes.length - 4)) = bytes.drop (bytes.length - 4) := by
        have spelled := Bytes.littleEndian_ofLittleEndian (bytes.drop (bytes.length - 4))
        rwa [size, ← same] at spelled
      rw [sealed, front, back, List.take_append_drop]

theorem read_unsealed {bytes : Bytes} (unsealed : ¬∃ body, bytes = sealed body) :
    ∃ fault, Container.read bytes = .error (.fault fault) ∧ fault.status = .invalidArgument := by
  obtain ⟨cause, refused, blamed⟩ := refuses_unsealed unsealed
  exact ⟨⟨cause, []⟩, refused, blamed.status_eq⟩

theorem read_write (fits : container.Fits) (formed : container.Formed) :
    ∃ bytes, container.write = .ok bytes ∧ Container.read bytes = .ok container.unmarked :=
  ⟨sealed container.spelling, write_eq fits,
    (read_sealed _).trans (finishes_body fits formed).parse⟩

end Container

namespace Step

def numbers : Step → List Number
  | .value _ slot values exprs => slot.toList ++ (values ++ exprs)
  | .literal index | .outputValue index | .outputExpr index => [index]
  | .apply operator deps => operator :: deps
  | .codec _ | .leaf _ | .placeholder _ | .malformed _ => []

def sizes : Step → List Nat
  | .value payload _ values exprs => [payload.length, values.length, exprs.length]
  | .apply _ deps => [deps.length]
  | .codec text | .leaf text | .placeholder text => [(Text.utf8 text).length]
  | .literal _ | .outputValue _ | .outputExpr _ | .malformed _ => []

def text? : Step → Option String
  | .codec text | .leaf text | .placeholder text => some text
  | _ => none

theorem fits_iff (step : Step) :
    step.Fits ↔ (∀ x ∈ step.numbers, x.Word) ∧ ∀ size ∈ step.sizes, size ≤ Varint.limit := by
  cases step with
  | value payload slot values exprs =>
      simp only [Fits, Number.AllFit, Number.fits_iff_word, numbers, sizes,
        List.forall_mem_append, List.forall_mem_cons, Option.mem_toList]
      constructor
      · rintro ⟨short, slot, ⟨few, values⟩, few', exprs⟩
        exact ⟨⟨slot, values, exprs⟩, short, few, few', List.forall_mem_nil _⟩
      · rintro ⟨⟨slot, values, exprs⟩, short, few, few', -⟩
        exact ⟨short, slot, ⟨few, values⟩, few', exprs⟩
  | apply operator deps =>
      simp only [Fits, Number.AllFit, Number.fits_iff_word, numbers, sizes, List.forall_mem_cons]
      constructor
      · rintro ⟨operator, few, deps⟩
        exact ⟨⟨operator, deps⟩, few, List.forall_mem_nil _⟩
      · rintro ⟨⟨operator, deps⟩, few, -⟩
        exact ⟨operator, few, deps⟩
  | _ => simp [Fits, numbers, sizes, Number.fits_iff_word]

theorem all_fit_iff (steps : List Step) : (∀ step ∈ steps, step.Fits) ↔
    (∀ x ∈ steps.flatMap numbers, x.Word) ∧ ∀ size ∈ steps.flatMap sizes, size ≤ Varint.limit := by
  induction steps with
  | nil => simp
  | cons step steps ih =>
      rw [List.forall_mem_cons, ih, fits_iff, List.flatMap_cons, List.flatMap_cons,
        List.forall_mem_append, List.forall_mem_append]
      exact and_and_and_comm

theorem unmarked_eq_self_iff (step : Step) :
    step.unmarked = step ↔ ∀ text ∈ step.text?, Text.Unmarked text := by
  cases step <;> simp [unmarked, text?, Text.dropMark_eq_self_iff]

end Step

namespace Container

variable {container : Container}

def numbers (container : Container) : List Number :=
  container.version.toList ++ (container.steps.flatMap Step.numbers ++
    (container.outputValues ++ container.outputExprs))

def sizes (container : Container) : List Nat :=
  container.steps.length :: container.outputValues.length :: container.outputExprs.length ::
    container.steps.flatMap Step.sizes

def texts (container : Container) : List String := container.steps.filterMap Step.text?

theorem fits_iff : container.Fits ↔ container.version.isSome = true ∧
    (∀ x ∈ container.numbers, x.Word) ∧ ∀ size ∈ container.sizes, size ≤ Varint.limit := by
  have allFit (xs : List Number) :
      Number.AllFit xs ↔ xs.length ≤ Varint.limit ∧ ∀ x ∈ xs, x.Word := by
    simp only [Number.AllFit, Number.fits_iff_word]
  have version : (∃ version, container.version = some version ∧ version.Fits) ↔
      container.version.isSome = true ∧ ∀ x ∈ container.version.toList, x.Word := by
    cases container.version <;> simp [Number.fits_iff_word]
  simp only [numbers, sizes, List.forall_mem_append, List.forall_mem_cons]
  constructor
  · rintro ⟨present, count, steps, values, exprs⟩
    rw [version] at present
    rw [Step.all_fit_iff] at steps
    rw [allFit] at values exprs
    exact ⟨present.1, ⟨present.2, steps.1, values.2, exprs.2⟩, count, values.1, exprs.1, steps.2⟩
  · rintro ⟨present, ⟨word, words, values, exprs⟩, count, fewValues, fewExprs, sizes⟩
    exact ⟨version.mpr ⟨present, word⟩, count, (Step.all_fit_iff _).mpr ⟨words, sizes⟩,
      (allFit _).mpr ⟨fewValues, values⟩, (allFit _).mpr ⟨fewExprs, exprs⟩⟩

theorem unmarked_eq_self_iff :
    container.unmarked = container ↔ ∀ text ∈ container.texts, Text.Unmarked text := by
  have same : container.unmarked = container ↔
      container.steps.map Step.unmarked = container.steps.map id := by
    cases container
    simp [unmarked]
  rw [same, List.map_inj_left]
  constructor
  · intro plain text listed
    rcases List.mem_filterMap.mp listed with ⟨step, present, held⟩
    exact step.unmarked_eq_self_iff.mp (plain step present) text held
  · intro plain step present
    exact step.unmarked_eq_self_iff.mpr fun text held =>
      plain text (List.mem_filterMap.mpr ⟨step, present, held⟩)

/-- A container of steps of known kinds is written exactly if it has a version and all its numbers
are integers of 32 bits, its sizes being such as a numeral can spell; else it is blamed. What is
written is read back as the same container, but that each text loses its leading byte order mark. -/
theorem write_then_read (formed : container.Formed) :
    ((∃ bytes, container.write = .ok bytes) ↔ container.version.isSome = true ∧
      (∀ x ∈ container.numbers, x.Word) ∧ ∀ size ∈ container.sizes, size ≤ Varint.limit) ∧
    (∀ problem, container.write = .error problem →
      ∃ fault, problem = .fault fault ∧ fault.status = .invalidArgument) ∧
    (∀ bytes, container.write = .ok bytes → Container.read bytes = .ok container.unmarked) ∧
    (container.unmarked = container ↔ ∀ text ∈ container.texts, Text.Unmarked text) := by
  refine ⟨write_isOk_iff.trans fits_iff, ?_, ?_, unmarked_eq_self_iff⟩
  · intro problem failed
    by_cases fits : container.Fits
    · exact absurd ((write_eq fits).symm.trans failed) nofun
    · rcases write_refused fits with ⟨fault, refused, status⟩
      exact ⟨fault, Except.error.inj (failed.symm.trans refused), status⟩
  · intro bytes written
    rcases read_write (write_isOk_iff.mp ⟨bytes, written⟩) formed with ⟨other, written', back⟩
    rw [Except.ok.inj (written.symm.trans written'), back]

def marked : Container where
  version := some 1
  steps := [.leaf "\uFEFFx", .value [] none [] [0, 4294967295], .value [0] (some 128) [1] []]
  outputValues := [1]
  outputExprs := []

theorem write_then_read_marked : marked.Formed ∧ ∃ bytes, marked.write = .ok bytes ∧
    Container.read bytes = .ok { marked with
      steps := [.leaf "x", .value [] none [] [0, 4294967295], .value [0] (some 128) [1] []] } := by
  have formed : marked.Formed := by
    intro step listed
    simp only [marked, List.mem_cons, List.not_mem_nil, or_false] at listed
    rcases listed with rfl | rfl | rfl <;> trivial
  have held := write_then_read formed
  rcases held.1.mpr (by decide) with ⟨bytes, written⟩
  exact ⟨formed, bytes, written, held.2.2.1 bytes written⟩

end Container

end ExprWire
