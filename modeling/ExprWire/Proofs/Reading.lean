import ExprWire.Proofs.Rounding
import ExprWire.Proofs.Writing
import ExprWire.Wire.Reading
/-!
What has been written is read back, each call by the one that belongs to it. Numbers come back as
what their bytes can hold of them and texts without a mark in front, so a call is read back as it
was exactly if nothing of it is lost.
-/

namespace ExprWire

def Number.Within (x : Number) (low high : Int) : Prop :=
  ∃ n : Int, x = .whole n ∧ low ≤ n ∧ n ≤ high

theorem Number.within_iff {x : Number} {low high : Int} (reduce : Int → Int)
    (kept : ∀ n, reduce n = n ↔ low ≤ n ∧ n ≤ high) :
    Number.whole (reduce x.truncated) = x ↔ x.Within low high := by
  cases x with
  | whole n =>
      constructor
      · intro same
        exact ⟨n, rfl, (kept n).mp (Number.whole.inj same)⟩
      · rintro ⟨m, same, within⟩
        cases same
        exact congrArg Number.whole ((kept n).mpr within)
  | other x notWhole =>
      constructor
      · intro same
        cases same
      · rintro ⟨m, same, -⟩
        cases same

theorem Number.ofNat_toNat {n : Int} (natural : 0 ≤ n) : Number.ofNat n.toNat = .whole n :=
  congrArg Number.whole (Int.toNat_of_nonneg natural)

namespace Writing

def restored : Writing → Writing
  | .byte x => .byte (.whole (x.truncated % 256))
  | .uint32 x => .uint32 (.whole (x.truncated % 4294967296))
  | .int32 x => .int32 (.whole (x.truncated.bmod 4294967296))
  | .int64 n => .int64 (n.bmod 18446744073709551616)
  | .text content => .text (Text.dropMark content)
  | .float32 x => .float32 x.narrow.widen
  | writing => writing

/-- Whether what is written can be read back as it is. -/
def Restorable : Writing → Prop
  | .byte x => x.Within 0 255
  | .varint x | .uint32 x => x.Word
  | .int32 x => x.Within (-2147483648) 2147483647
  | .int64 n => -9223372036854775808 ≤ n ∧ n ≤ 9223372036854775807
  | .blob content => content.length ≤ 4294967295
  | .text content => (Text.utf8 content).length ≤ 4294967295 ∧ Text.Unmarked content
  | .float32 x => ∃ single : Binary32, single.widen = x
  | .bytes _ | .float64 _ => True

theorem restored_eq_self_iff {writing : Writing} (fits : writing.Fits) :
    writing.restored = writing ↔ writing.Restorable := by
  cases writing with
  | byte x =>
      rw [restored, byte.injEq]
      exact Number.within_iff (· % 256) fun n => by omega
  | bytes content => exact iff_of_true rfl trivial
  | varint x => exact iff_of_true rfl (Number.fits_iff_word.mp (fits x rfl))
  | blob content =>
      have short := Number.fits_ofNat.mp (fits _ rfl)
      exact iff_of_true rfl short
  | text content =>
      have short := Number.fits_ofNat.mp (fits _ rfl)
      rw [restored, text.injEq, Text.dropMark_eq_self_iff]
      exact (and_iff_right short).symm
  | uint32 x =>
      rw [restored, uint32.injEq]
      exact Number.within_iff (· % 4294967296) fun n => by omega
  | int32 x =>
      rw [restored, int32.injEq]
      refine Number.within_iff (·.bmod 4294967296) fun n => ?_
      simp only [Int.bmod]
      omega
  | int64 n =>
      rw [restored, int64.injEq, Restorable]
      simp only [Int.bmod]
      omega
  | float32 x =>
      rw [restored, float32.injEq]
      constructor
      · intro same
        exact ⟨x.narrow, same⟩
      · rintro ⟨single, rfl⟩
        rw [single.narrow_widen]
  | float64 x => exact iff_of_true rfl trivial

theorem Restorable.fits {writing : Writing} (restorable : writing.Restorable) : writing.Fits := by
  intro x first
  cases writing with
  | varint y =>
      cases first
      exact Number.fits_iff_word.mpr restorable
  | blob content =>
      cases first
      exact Number.fits_ofNat.mpr restorable
  | text content =>
      cases first
      exact Number.fits_ofNat.mpr restorable.1
  | _ => cases first

theorem map_restored_iff {writings : List Writing} :
    writings.map restored = writings ↔ ∀ writing ∈ writings, writing.restored = writing := by
  have each := List.map_inj_left (f := restored) (g := id) (l := writings)
  rwa [List.map_id] at each

theorem restorable_iff {writing : Writing} :
    writing.Restorable ↔ writing.Fits ∧ writing.restored = writing := by
  constructor
  · intro restorable
    exact ⟨restorable.fits, (restored_eq_self_iff restorable.fits).mpr restorable⟩
  · rintro ⟨fits, same⟩
    exact (restored_eq_self_iff fits).mp same

end Writing

namespace Reader

theorem reads_perform {writing : Writing} (fits : writing.Fits) :
    Reads (perform writing.reading) writing.spelling writing.restored := by
  cases writing with
  | byte x =>
      have digit : (UInt8.ofNat (x.truncated % 256).toNat).toNat = (x.truncated % 256).toNat :=
        UInt8.toNat_ofNat_of_lt (show (x.truncated % 256).toNat < 256 by omega)
      have read := (reads_byte (UInt8.ofNat (x.truncated % 256).toNat)).map
        (f := fun digit => Writing.byte (.ofNat digit.toNat))
      rwa [digit, Number.ofNat_toNat (by omega)] at read
  | bytes content => exact (reads_bytes content).map (f := Writing.bytes)
  | varint x =>
      obtain ⟨n, -, rfl, -⟩ := (fits x rfl).exists_nat
      exact (reads_number (fits _ rfl)).map (f := fun n => Writing.varint (.ofNat n))
  | blob content =>
      exact (reads_blob (Number.fits_ofNat.mp (fits _ rfl))).map (f := Writing.blob)
  | text content =>
      exact (reads_text (Number.fits_ofNat.mp (fits _ rfl))).map (f := Writing.text)
  | uint32 x =>
      have power : ((1 <<< (8 * 4) : Nat) : Int) = 4294967296 := rfl
      have read := (reads_word 4 x.truncated).map (f := fun n => Writing.uint32 (.ofNat n))
      rwa [power, Number.ofNat_toNat (by omega)] at read
  | int32 x =>
      have read := ((reads_word 4 x.truncated).map (f := Int32.ofNat)).map
        (f := fun n => Writing.int32 (.whole n.toInt))
      rwa [toInt_int32] at read
  | int64 n =>
      have read := ((reads_word 8 n).map (f := Int64.ofNat)).map
        (f := fun n => Writing.int64 n.toInt)
      rwa [toInt_int64] at read
  | float32 x => exact (reads_float32 x.narrow).map (f := fun x => Writing.float32 x.widen)
  | float64 x => exact (reads_float64 x).map (f := Writing.float64)

theorem reads_performAll {writings : List Writing} (fits : ∀ writing ∈ writings, writing.Fits) :
    Reads (performAll (writings.map Writing.reading)) (writings.flatMap Writing.spelling)
      (writings.map Writing.restored) := by
  induction writings with
  | nil => exact Reads.pure []
  | cons writing others ih =>
      have first := reads_perform (fits writing List.mem_cons_self)
      have rest := ih fun other present => fits other (List.mem_cons_of_mem _ present)
      exact first.bind (rest.map (f := (writing.restored :: ·)))

theorem atEnd_iff {offset : Nat} {rest : Bytes} :
    atEnd.run ⟨offset, rest⟩ = (.ok true, ⟨offset, rest⟩) ↔ rest = [] := by
  cases rest with
  | nil => exact iff_of_true rfl rfl
  | cons byte rest => exact iff_of_false nofun (List.cons_ne_nil byte rest)

theorem expectEnd_iff {offset : Nat} {rest : Bytes} :
    expectEnd.run ⟨offset, rest⟩ = (.ok (), ⟨offset, rest⟩) ↔ rest = [] := by
  cases rest with
  | nil => exact iff_of_true rfl rfl
  | cons byte rest => exact iff_of_false nofun (List.cons_ne_nil byte rest)

/-- Calls are read back as they were, whatever follows, exactly if each of them is restorable. What
follows is left, so the end has been reached if it is nothing. -/
theorem reads_undo_writes (capacity : Capacity) (writings : List Writing) :
    (∀ writing ∈ writings, writing.Restorable) ↔
      ∃ buffer, (Buffer.withCapacity capacity).performAll writings =
          (writings.map fun _ => .ok (), buffer) ∧
        ∀ trailing, (performAll (writings.map Writing.reading)).run
            (.start (buffer.bytes ++ trailing)) =
              (.ok writings, ⟨buffer.bytes.length, trailing⟩) ∧
          (atEnd.run ⟨buffer.bytes.length, trailing⟩ =
            (.ok true, ⟨buffer.bytes.length, trailing⟩) ↔ trailing = []) ∧
          (expectEnd.run ⟨buffer.bytes.length, trailing⟩ =
            (.ok (), ⟨buffer.bytes.length, trailing⟩) ↔ trailing = []) := by
  obtain ⟨outcomes, contents⟩ := (Buffer.withCapacity capacity).performAll_spec writings
  rw [Buffer.bytes_withCapacity, List.nil_append] at contents
  constructor
  · intro restorable
    have fits (writing) (listed : writing ∈ writings) := (restorable writing listed).fits
    have succeed : writings.map Writing.outcome = writings.map fun _ => .ok () :=
      List.map_congr_left fun writing listed => Writing.outcome_fit (fits writing listed)
    have same : writings.map Writing.restored = writings := Writing.map_restored_iff.mpr
      fun writing listed => (Writing.restorable_iff.mp (restorable writing listed)).2
    have read := reads_performAll fits
    rw [same, ← Writing.spellings_eq fits, ← contents] at read
    refine ⟨_, Prod.ext (outcomes.trans succeed) rfl, fun trailing => ?_⟩
    refine ⟨?_, atEnd_iff, expectEnd_iff⟩
    rw [Cursor.start, read, Nat.zero_add]
  · rintro ⟨buffer, runs, reads⟩
    rw [runs] at outcomes contents
    -- all calls went well, so what is read is known, and only what lost nothing is read as written
    have fits : ∀ writing ∈ writings, writing.Fits := fun writing listed =>
      Writing.outcome_eq_ok_iff.mp (List.map_inj_left.mp outcomes writing listed).symm
    have read := reads_performAll fits 0 []
    rw [← Writing.spellings_eq fits, ← contents] at read
    have same := read.symm.trans (reads []).1
    have kept := Writing.map_restored_iff.mp (Except.ok.inj (Prod.mk.inj same).1)
    intro writing listed
    exact Writing.restorable_iff.mpr ⟨fits writing listed, kept writing listed⟩

end Reader

end ExprWire
