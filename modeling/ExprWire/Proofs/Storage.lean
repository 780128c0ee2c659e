import ExprWire.Proofs.Writing
import ExprWire.Wire.Storage
/-!
Storage in memory holds what is written to it. Room is made before anything is written, so no byte
is lost and no copy is refused wherever a call meets the end of an array; and what has been written
moves along to the new one.
-/

namespace ExprWire

theorem Varint.length_encode_le {digits n : Nat} (room : n < Nat.pow 128 (digits + 1)) :
    (encode n).length ≤ digits + 1 := by
  induction digits generalizing n with
  | zero =>
      have last : n < 128 := room
      rw [encode, if_pos last]
      exact Nat.le_refl 1
  | succ digits ih =>
      have power : Nat.pow 128 (digits + 1 + 1) = Nat.pow 128 (digits + 1) * 128 := rfl
      rw [encode]
      split
      · exact Nat.succ_le_succ (Nat.zero_le _)
      · exact Nat.succ_le_succ (ih (by omega))

namespace Storage

variable {storage after : Storage}

theorem exists_doubled {capacity : Nat} (pos : 0 < capacity) (needed : Nat) :
    ∃ times, Buffer.doubled capacity needed pos = capacity * Nat.pow 2 times ∧
      ∀ fewer < times, capacity * Nat.pow 2 fewer < needed := by
  fun_induction Buffer.doubled capacity needed pos with
  | case1 capacity pos enough =>
      exact ⟨0, (Nat.mul_one capacity).symm, fun fewer less => absurd less (Nat.not_lt_zero fewer)⟩
  | case2 capacity pos more ih =>
      obtain ⟨times, found, first⟩ := ih
      have twice (times : Nat) :
          2 * capacity * Nat.pow 2 times = capacity * Nat.pow 2 (times + 1) := by
        have power : Nat.pow 2 (times + 1) = Nat.pow 2 times * 2 := rfl
        rw [power, Nat.mul_comm 2, Nat.mul_assoc, Nat.mul_comm 2]
      refine ⟨times + 1, found.trans (twice times), fun fewer less => ?_⟩
      cases fewer with
      | zero =>
          have once : capacity * Nat.pow 2 0 = capacity := Nat.mul_one capacity
          omega
      | succ fewer =>
          rw [← twice]
          exact first fewer (by omega)

theorem length_overwrite {cells content : Bytes} {offset : Nat}
    (room : offset + content.length ≤ cells.length) :
    (overwrite cells offset content).length = cells.length := by
  rw [overwrite, List.length_append, List.length_append, List.length_take, List.length_drop]
  omega

theorem take_overwrite {cells content : Bytes} {offset : Nat}
    (room : offset + content.length ≤ cells.length) :
    (overwrite cells offset content).take (offset + content.length) =
      cells.take offset ++ content := by
  have front : (cells.take offset ++ content).length = offset + content.length := by
    rw [List.length_append, List.length_take]
    omega
  rw [← front]
  exact List.take_left

/-- That the array written to is the one viewed, has not been left behind, and is not shorter than
what has been written. -/
structure Sound (storage : Storage) : Prop where
  inside : storage.array < storage.arrays.length
  viewed : storage.view = storage.array
  position_le : storage.position ≤ storage.capacity
  capacity_pos : 0 < storage.capacity

theorem Sound.length_written (sound : Sound storage) :
    storage.written.length = storage.position := by
  rw [written, List.length_take]
  exact Nat.min_eq_left sound.position_le

theorem sound_allocate {capacity : Nat} (pos : 0 < capacity) : Sound (allocate capacity) where
  inside := Nat.zero_lt_one
  viewed := rfl
  position_le := Nat.zero_le _
  capacity_pos := by
    change 0 < (List.replicate capacity 0).length
    rwa [List.length_replicate]

theorem written_allocate (capacity : Nat) : (allocate capacity).written = [] := List.take_zero

structure Gains (storage after : Storage) (content : Bytes) : Prop where
  sound : Sound after
  written : after.written = storage.written ++ content
  capacity : after.capacity = storage.capacity

theorem Gains.position (sound : Sound storage) {content : Bytes}
    (gains : Gains storage after content) :
    after.position = storage.position + content.length := by
  rw [← gains.sound.length_written, gains.written, List.length_append, sound.length_written]

theorem Sound.gains (sound : Sound storage) {cells content : Bytes}
    (size : cells.length = storage.capacity)
    (room : storage.position + content.length ≤ storage.capacity)
    (begins : cells.take (storage.position + content.length) = storage.written ++ content) :
    Gains storage { storage with
      arrays := storage.arrays.set storage.array cells
      position := storage.position + content.length } content := by
  have replaced : (storage.arrays.set storage.array cells)[storage.array]?.getD [] = cells := by
    rw [List.getElem?_set_self sound.inside, Option.getD_some]
  have capacity : ((storage.arrays.set storage.array cells)[storage.array]?.getD []).length =
      storage.capacity := by rw [replaced, size]
  refine ⟨⟨?_, sound.viewed, ?_, ?_⟩, ?_, capacity⟩
  · change storage.array < (storage.arrays.set storage.array cells).length
    rw [List.length_set]
    exact sound.inside
  · exact Nat.le_trans room (Nat.le_of_eq capacity.symm)
  · exact Nat.lt_of_lt_of_eq sound.capacity_pos capacity.symm
  · change List.take _ ((storage.arrays.set storage.array cells)[storage.array]?.getD []) = _
    rw [replaced, begins]

/-- That an action writes content if there is room for it. -/
def Fills (action : Action Unit) (content : Bytes) : Prop :=
  ∀ ⦃storage⦄, Sound storage → storage.position + content.length ≤ storage.capacity →
    ∃ after, action.run storage = some (.ok (), after) ∧ Gains storage after content

variable {first second : Action Unit} {content more : Bytes}

theorem Fills.andThen (fills : Fills first content) (fills' : Fills second more) :
    Fills (do first; second) (content ++ more) := by
  intro storage sound room
  rw [List.length_append, ← Nat.add_assoc] at room
  obtain ⟨middle, run, gains⟩ := fills sound (by omega)
  have room' : middle.position + more.length ≤ middle.capacity := by
    rwa [gains.position sound, gains.capacity]
  obtain ⟨after, run', gains'⟩ := fills' gains.sound room'
  refine ⟨after, (run_bind_ok run).trans run', gains'.sound, ?_, ?_⟩
  · rw [gains'.written, gains.written, List.append_assoc]
  · rw [gains'.capacity, gains.capacity]

theorem fills_store (byte : UInt8) : Fills (store byte) [byte] := by
  intro storage sound room
  have here : storage.position < (storage.cells storage.array).length := room
  refine ⟨_, rfl, sound.gains List.length_set room ?_⟩
  rw [List.length_singleton, List.take_succ_eq_append_getElem (by rwa [List.length_set]),
    List.take_set_of_le (Nat.le_refl _), List.getElem_set_self]
  rfl

theorem fills_copy {chosen : Storage → Nat} (own : ∀ ⦃storage⦄, Sound storage →
    chosen storage = storage.array) (content : Bytes) : Fills (copy chosen content) content := by
  intro storage sound room
  have fits : storage.position + content.length ≤ (storage.cells (chosen storage)).length := by
    rw [own sound]
    exact room
  refine ⟨_, if_pos fits, ?_⟩
  rw [own sound]
  exact sound.gains (length_overwrite room) room (take_overwrite room)

theorem fills_digits (n : Nat) : Fills (storeDigits n) (Varint.encode n) := by
  induction n using Nat.strongRecOn with
  | _ n ih =>
      rw [storeDigits, Varint.encode]
      by_cases last : n < 128
      · rw [if_pos last, if_neg (by omega)]
        exact fills_store _
      · have digit : UInt8.ofInt (128 + n % 128 : Nat) = UInt8.ofNat (128 + n % 128) := by
          rw [UInt8.ofInt]
          congr 1
          omega
        rw [if_neg last, if_pos (by omega), Word.or_and_septet, digit]
        exact (fills_store _).andThen (ih (n / 128) (by omega))

theorem Sound.exists_reserve (sound : Sound storage) (extra : Nat) :
    ∃ after times, (reserve extra).run storage = some (.ok (), after) ∧ Sound after ∧
      after.written = storage.written ∧ storage.position + extra ≤ after.capacity ∧
      after.capacity = storage.capacity * Nat.pow 2 times ∧
      ∀ fewer < times, storage.capacity * Nat.pow 2 fewer < storage.position + extra := by
  by_cases room : storage.position + extra ≤ storage.capacity
  · refine ⟨storage, 0, if_pos room, sound, rfl, room, (Nat.mul_one _).symm, fun fewer less => ?_⟩
    exact absurd less (Nat.not_lt_zero fewer)
  · let capacity := Buffer.doubled storage.capacity (storage.position + extra) sound.capacity_pos
    have enough : storage.position + extra ≤ capacity := Buffer.le_doubled _ _ _
    obtain ⟨times, twofold, first⟩ := exists_doubled sound.capacity_pos (storage.position + extra)
    let cells := overwrite (List.replicate capacity 0) 0 storage.written
    let moved : Storage := ⟨storage.arrays ++ [cells], storage.arrays.length,
      storage.arrays.length, storage.position⟩
    have run : (reserve extra).run storage = some (.ok (), moved) :=
      (if_neg room).trans (dif_pos sound.capacity_pos)
    have front : 0 + storage.written.length ≤ (List.replicate capacity (0 : UInt8)).length := by
      rw [List.length_replicate, sound.length_written]
      omega
    have held : moved.cells moved.array = cells := by
      change ((storage.arrays ++ [cells])[storage.arrays.length]?).getD [] = cells
      rw [List.getElem?_concat_length, Option.getD_some]
    have size : moved.capacity = capacity := by
      rw [Storage.capacity, held, length_overwrite front, List.length_replicate]
    have content : moved.written = storage.written := by
      have kept := take_overwrite front
      rw [List.take_zero, List.nil_append, Nat.zero_add, sound.length_written] at kept
      rw [written, held, ← kept]
    refine ⟨moved, times, run, ⟨?_, rfl, ?_, ?_⟩, content, size ▸ enough, size.trans twofold, first⟩
    · change storage.arrays.length < (storage.arrays ++ [cells]).length
      rw [List.length_append, List.length_singleton]
      exact Nat.lt_succ_self _
    · rw [size]
      exact Nat.le_trans (Nat.le_add_right _ _) enough
    · rw [size]
      exact Nat.lt_of_lt_of_le (by omega) enough

def Appends (action : Action Unit) (content : Bytes) : Prop :=
  ∀ ⦃storage⦄, Sound storage → ∃ after, action.run storage = some (.ok (), after) ∧
    Sound after ∧ after.written = storage.written ++ content

theorem Fills.reserved (fills : Fills first content) {extra : Nat}
    (enough : content.length ≤ extra) : Appends (do reserve extra; first) content := by
  intro storage sound
  obtain ⟨middle, -, run, sound', kept, room, -⟩ := sound.exists_reserve extra
  have same : middle.position = storage.position := by
    rw [← sound'.length_written, kept, sound.length_written]
  obtain ⟨after, run', gains⟩ := fills sound' (by omega)
  exact ⟨after, (run_bind_ok run).trans run', gains.sound, by rw [gains.written, kept]⟩

theorem Appends.andThen (appends : Appends first content) (appends' : Appends second more) :
    Appends (do first; second) (content ++ more) := by
  intro storage sound
  obtain ⟨middle, run, sound', written⟩ := appends sound
  obtain ⟨after, run', sound'', written'⟩ := appends' sound'
  refine ⟨after, (run_bind_ok run).trans run', sound'', ?_⟩
  rw [written', written, List.append_assoc]

theorem appends_byte (x : Number) : Appends (byte x) (Writing.word 1 x.truncated) :=
  (fills_store _).reserved (Nat.le_refl 1)

theorem appends_bytes (content : Bytes) : Appends (bytes content) content :=
  (fills_copy (fun _ _ => rfl) content).reserved (Nat.le_refl _)

theorem appends_word (content : Bytes) : Appends (word content) content :=
  (fills_copy (fun _ sound => sound.viewed) content).reserved (Nat.le_refl _)

theorem appends_varint {x : Number} (fits : x.Fits) : Appends (varint x) (Spelling.number x) := by
  obtain ⟨n, small, rfl, spelled⟩ := fits.exists_nat
  have short : (Varint.encode n).length ≤ 4 + 1 :=
    Varint.length_encode_le (Nat.lt_of_le_of_lt small (by decide))
  rw [Spelling.number_ofNat small, varint, spelled]
  exact (fills_digits n).reserved short

theorem varint_unfit {x : Number} (unfit : ¬x.Fits) (storage : Storage) :
    (varint x).run storage = some (raise (.notVarint x), storage) := by
  rw [varint, Varint.value?_unfit unfit]
  rfl

theorem appends_blob {content : Bytes} (short : content.length ≤ Varint.limit) :
    Appends (blob content) (Spelling.blob content) := by
  have count := appends_varint (Number.fits_ofNat.mpr short)
  rw [Spelling.number_ofNat short] at count
  exact count.andThen (appends_bytes content)

theorem appends_perform {writing : Writing} (fits : writing.Fits) :
    Appends (perform writing) writing.spelling := by
  cases writing with
  | byte x => exact appends_byte x
  | bytes content => exact appends_bytes content
  | varint x => exact appends_varint (fits x rfl)
  | blob content => exact appends_blob (Number.fits_ofNat.mp (fits _ rfl))
  | text content => exact appends_blob (Number.fits_ofNat.mp (fits _ rfl))
  | _ => exact appends_word _

theorem perform_unfit {writing : Writing} (unfit : ¬writing.Fits) (storage : Storage) :
    (perform writing).run storage = some (writing.outcome, storage) := by
  obtain ⟨x, first, wide⟩ := Writing.exists_numeral unfit
  rw [Writing.outcome_unfit first wide]
  cases writing with
  | varint y =>
      cases first
      exact varint_unfit wide storage
  | blob content =>
      cases first
      exact run_bind_error (varint_unfit wide storage)
  | text content =>
      cases first
      exact run_bind_error (varint_unfit wide storage)
  | _ => cases first

theorem performAll_cons {writing : Writing} {others : List Writing} {outcome : Outcome Unit}
    {outcomes : List (Outcome Unit)} {middle : Storage}
    (run : (perform writing).run storage = some (outcome, middle))
    (runs : middle.performAll others = some (outcomes, after)) :
    storage.performAll (writing :: others) = some (outcome :: outcomes, after) := by
  simp only [performAll, run, runs, Option.bind_eq_bind, Option.bind_some]
  rfl

theorem Sound.exists_performAll (sound : Sound storage) (writings : List Writing) :
    ∃ after, storage.performAll writings = some (writings.map Writing.outcome, after) ∧
      Sound after ∧ after.written = storage.written ++ Writing.spellings writings := by
  induction writings generalizing storage with
  | nil => exact ⟨storage, rfl, sound, (List.append_nil _).symm⟩
  | cons writing others ih =>
      by_cases fits : writing.Fits
      · obtain ⟨middle, run, sound', written⟩ := appends_perform fits sound
        obtain ⟨after, runs, sound'', more⟩ := ih sound'
        refine ⟨after, ?_, sound'', ?_⟩
        · rw [performAll_cons run runs, List.map_cons, Writing.outcome_fit fits]
        · rw [more, written, Writing.spellings_fit fits, List.append_assoc]
      · obtain ⟨after, runs, sound', more⟩ := ih sound
        refine ⟨after, performAll_cons (perform_unfit fits storage) runs, sound', ?_⟩
        rw [more, Writing.spellings_unfit fits]

/-- Whatever is called, storage of any capacity comes to hold what the successful calls spell, one
after another, and a buffer holds the same. A call is refused for its numeral only and changes
nothing then. For as many more bytes as may be asked for, room is found by doubling the capacity as
often as it takes, and what has been written stays. -/
theorem writes_append_only {capacity : Nat} (pos : 0 < capacity) (writings : List Writing) :
    ∃ storage, (allocate capacity).performAll writings =
        some (writings.map Writing.outcome, storage) ∧
      storage.written = Writing.spellings writings ∧
      storage.position = storage.written.length ∧
      (∀ writing, ¬Writing.Fits writing →
        (perform writing).run storage = some (writing.outcome, storage)) ∧
      (∀ extra, ∃ after times, (reserve extra).run storage = some (.ok (), after) ∧
        after.written = storage.written ∧ after.position = storage.position ∧
        storage.position + extra ≤ after.capacity ∧
        after.capacity = storage.capacity * Nat.pow 2 times ∧
        ∀ fewer < times, storage.capacity * Nat.pow 2 fewer < storage.position + extra) ∧
      ∃ buffer, (Buffer.withCapacity ⟨capacity, pos⟩).performAll writings =
          (writings.map Writing.outcome, buffer) ∧
        buffer.bytes = storage.written ∧ buffer.used = storage.position := by
  obtain ⟨storage, runs, sound, written⟩ := (sound_allocate pos).exists_performAll writings
  obtain ⟨outcomes, contents⟩ := (Buffer.withCapacity ⟨capacity, pos⟩).performAll_spec writings
  rw [written_allocate, List.nil_append] at written
  rw [Buffer.bytes_withCapacity, List.nil_append, ← written] at contents
  refine ⟨storage, runs, written, sound.length_written.symm,
    fun writing unfit => perform_unfit unfit storage, fun extra => ?_,
    _, Prod.ext outcomes rfl, contents, ?_⟩
  · obtain ⟨after, times, run, sound', kept, room, size, first⟩ := sound.exists_reserve extra
    refine ⟨after, times, run, kept, ?_, room, size, first⟩
    rw [← sound'.length_written, kept, sound.length_written]
  · rw [← Buffer.length_bytes, contents, sound.length_written]

def crossing : List Writing :=
  [.varint (.whole (-1)), .varint 300, .uint32 (.whole (-2)), .text "é", .varint 4294967296]

theorem writes_append_only_crossing :
    0 < 1 ∧ ∃ storage, (allocate 1).performAll crossing =
        some ([raise (.notVarint (.whole (-1))), .ok (), .ok (), .ok (),
          raise (.notVarint 4294967296)], storage) ∧
      storage.written = [0xac, 0x02, 0xfe, 0xff, 0xff, 0xff, 0x02, 0xc3, 0xa9] := by
  have outcomes : crossing.map Writing.outcome = [raise (.notVarint (.whole (-1))), .ok (), .ok (),
      .ok (), raise (.notVarint 4294967296)] := rfl
  have spelled : Writing.spellings crossing =
      [0xac, 0x02, 0xfe, 0xff, 0xff, 0xff, 0x02, 0xc3, 0xa9] := by decide +kernel
  obtain ⟨storage, runs, written, -⟩ := writes_append_only (show 0 < 1 by decide) crossing
  exact ⟨by decide, storage, outcomes ▸ runs, written.trans spelled⟩

end Storage

end ExprWire
