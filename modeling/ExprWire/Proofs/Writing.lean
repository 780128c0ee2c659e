import ExprWire.Proofs.Spelling
import ExprWire.Wire.Writing
/-!
What calls write. Every call spells some bytes by itself, and a buffer holds what the successful
ones among its calls spell, one after another.
-/

namespace ExprWire

namespace Writing

def numeral : Writing → Option Number
  | .varint x => some x
  | .blob content => some content.length
  | .text content => some (Text.utf8 content).length
  | _ => none

def Fits (writing : Writing) : Prop := ∀ x ∈ writing.numeral, x.Fits

instance (writing : Writing) : Decidable writing.Fits :=
  inferInstanceAs (Decidable (∀ x ∈ writing.numeral, x.Fits))

def spelling : Writing → Bytes
  | .byte x => word 1 x.truncated
  | .bytes content => content
  | .varint x => Spelling.number x
  | .blob content => Spelling.blob content
  | .text content => Spelling.text content
  | .uint32 x | .int32 x => word 4 x.truncated
  | .int64 n => word 8 n
  | .float32 x => Bytes.littleEndian 4 x.narrow.bits.toNat
  | .float64 x => Bytes.littleEndian 8 x.bits.toNat

def outcome (writing : Writing) : Outcome Unit :=
  match writing.numeral with
  | some x => if x.Fits then .ok () else raise (.notVarint x)
  | none => .ok ()

variable {writing : Writing}

theorem outcome_fit (fits : writing.Fits) : writing.outcome = .ok () := by
  unfold outcome
  cases first : writing.numeral with
  | none => rfl
  | some x => exact if_pos (fits x first)

theorem exists_numeral (unfit : ¬writing.Fits) : ∃ x, writing.numeral = some x ∧ ¬x.Fits := by
  cases first : writing.numeral with
  | none => exact absurd (fun x listed => by rw [first] at listed; cases listed) unfit
  | some x =>
      refine ⟨x, rfl, fun fits => unfit fun y listed => ?_⟩
      rw [first] at listed
      cases listed
      exact fits

theorem outcome_unfit {x : Number} (first : writing.numeral = some x) (unfit : ¬x.Fits) :
    writing.outcome = raise (.notVarint x) := by
  rw [outcome, first]
  exact if_neg unfit

theorem outcome_eq_ok_iff : writing.outcome = .ok () ↔ writing.Fits := by
  refine ⟨fun succeeds => ?_, outcome_fit⟩
  by_cases fits : writing.Fits
  · exact fits
  · obtain ⟨x, first, wide⟩ := exists_numeral fits
    rw [outcome_unfit first wide] at succeeds
    cases succeeds

def spellings (writings : List Writing) : Bytes :=
  (writings.filter fun writing => writing.Fits).flatMap spelling

theorem spellings_fit (fits : writing.Fits) (others : List Writing) :
    spellings (writing :: others) = writing.spelling ++ spellings others := by
  rw [spellings, List.filter_cons, if_pos (decide_eq_true fits), List.flatMap_cons, spellings]

theorem spellings_unfit (unfit : ¬writing.Fits) (others : List Writing) :
    spellings (writing :: others) = spellings others := by
  rw [spellings, List.filter_cons, if_neg (by rwa [decide_eq_true_iff]), spellings]

theorem spellings_eq {writings : List Writing} (fits : ∀ writing ∈ writings, writing.Fits) :
    spellings writings = writings.flatMap spelling := by
  rw [spellings, List.filter_eq_self.mpr fun writing listed => decide_eq_true (fits writing listed)]

end Writing

namespace Buffer

theorem writes_perform {writing : Writing} (fits : writing.Fits) :
    Writes (·.perform writing) writing.spelling := by
  cases writing with
  | varint x => exact writes_varint (fits x rfl)
  | blob content => exact writes_blob (Number.fits_ofNat.mp (fits _ rfl))
  | text content => exact writes_text (Number.fits_ofNat.mp (fits _ rfl))
  | _ => exact writes_append _

theorem perform_unfit {writing : Writing} (unfit : ¬writing.Fits) (buffer : Buffer) :
    ∃ problem, buffer.perform writing = .error problem ∧ writing.outcome = .error problem := by
  obtain ⟨x, first, wide⟩ := Writing.exists_numeral unfit
  refine ⟨.of (.notVarint x), ?_, Writing.outcome_unfit first wide⟩
  cases writing with
  | varint y =>
      cases first
      exact varint_unfit wide buffer
  | blob content =>
      cases first
      rw [perform, blob, varint_unfit wide]
      rfl
  | text content =>
      cases first
      rw [perform, text, blob, varint_unfit wide]
      rfl
  | _ => cases first

theorem performAll_spec (buffer : Buffer) (writings : List Writing) :
    (buffer.performAll writings).1 = writings.map Writing.outcome ∧
    (buffer.performAll writings).2.bytes = buffer.bytes ++ Writing.spellings writings := by
  induction writings generalizing buffer with
  | nil => exact ⟨rfl, (List.append_nil _).symm⟩
  | cons writing others ih =>
      by_cases fits : writing.Fits
      · obtain ⟨after, run, content⟩ := writes_perform fits buffer
        obtain ⟨outcomes, contents⟩ := ih after
        simp only [performAll, run, Prod.map, id, List.map_cons, Writing.outcome_fit fits]
        rw [outcomes, contents, content, Writing.spellings_fit fits, List.append_assoc]
        exact ⟨rfl, rfl⟩
      · obtain ⟨problem, run, refused⟩ := perform_unfit fits buffer
        obtain ⟨outcomes, contents⟩ := ih buffer
        simp only [performAll, run, Prod.map, id, List.map_cons, refused]
        rw [outcomes, contents, Writing.spellings_unfit fits]
        exact ⟨rfl, rfl⟩

end Buffer

end ExprWire
