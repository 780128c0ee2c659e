import ExprWire.Wire.Buffer
import ExprWire.Wire.Cursor
import ExprWire.Proofs.Bytes
/-!
What the writers spell and the readers read back. A writer that spells some bytes appends them to
any buffer; a reader that reads them takes exactly these, whatever follows.
-/

namespace ExprWire

namespace Spelling

def blob (bytes : Bytes) : Bytes := Varint.encode bytes.length ++ bytes

def text (content : String) : Bytes := blob (Text.utf8 content)

theorem length_text {content : String} (small : (Text.utf8 content).length < 128) :
    (text content).length = (Text.utf8 content).length + 1 := by
  rw [text, blob, Varint.encode, if_pos small]
  rfl

def number (x : Number) : Bytes := Varint.encode ((Varint.value? x).getD 0)

def numbers (xs : List Number) : Bytes := Varint.encode xs.length ++ xs.flatMap number

end Spelling

def Number.Fits (x : Number) : Prop := (Varint.value? x).isSome = true

instance (x : Number) : Decidable x.Fits := inferInstanceAs (Decidable (_ = true))

theorem Varint.value?_ofNat (n : Nat) :
    Varint.value? (Number.ofNat n) = if n ≤ Varint.limit then some n else none := rfl

theorem Number.fits_ofNat {n : Nat} : (Number.ofNat n).Fits ↔ n ≤ Varint.limit := by
  rw [Fits, Varint.value?_ofNat]
  by_cases small : n ≤ Varint.limit
  · rw [if_pos small]
    exact ⟨fun _ => small, fun _ => rfl⟩
  · rw [if_neg small]
    exact ⟨fun held => absurd held Bool.false_ne_true, fun held => absurd held small⟩

theorem Number.Fits.exists_nat {x : Number} (fits : x.Fits) :
    ∃ n, n ≤ Varint.limit ∧ x = .ofNat n ∧ Varint.value? x = some n := by
  unfold Fits at fits
  cases x with
  | other x notWhole => exact absurd fits Bool.false_ne_true
  | whole m =>
      cases m with
      | negSucc m => exact absurd fits Bool.false_ne_true
      | ofNat n =>
          have small : n ≤ Varint.limit := Number.fits_ofNat.mp fits
          exact ⟨n, small, rfl, (Varint.value?_ofNat n).trans (if_pos small)⟩

def Number.Word (x : Number) : Prop := ∃ n : Int, x = .whole n ∧ 0 ≤ n ∧ n ≤ 4294967295

theorem Number.fits_iff_word {x : Number} : x.Fits ↔ x.Word := by
  constructor
  · intro fits
    rcases fits.exists_nat with ⟨n, small, same, -⟩
    exact ⟨n, same, Int.natCast_nonneg n, Int.ofNat_le.mpr small⟩
  · rintro ⟨n, rfl, natural, small⟩
    rcases Int.eq_ofNat_of_zero_le natural with ⟨m, rfl⟩
    exact Number.fits_ofNat.mpr (Int.ofNat_le.mp small)

instance (x : Number) : Decidable x.Word := decidable_of_iff _ Number.fits_iff_word

theorem Varint.value?_unfit {x : Number} (unfit : ¬x.Fits) : Varint.value? x = none := by
  cases spelled : Varint.value? x with
  | none => rfl
  | some n => exact absurd (by rw [Number.Fits, spelled]; rfl) unfit

theorem Spelling.number_ofNat {n : Nat} (small : n ≤ Varint.limit) :
    Spelling.number (.ofNat n) = Varint.encode n := by
  rw [Spelling.number, Varint.value?_ofNat, if_pos small, Option.getD_some]

namespace Buffer

/-- Whether a writer appends the bytes to whatever it is given. -/
def Writes (write : Buffer → Outcome Buffer) (bytes : Bytes) : Prop :=
  ∀ buffer, ∃ after, write buffer = .ok after ∧ after.bytes = buffer.bytes ++ bytes

def Refuses (write : Buffer → Outcome Buffer) : Prop :=
  ∀ buffer, ∃ fault, write buffer = .error (.fault fault) ∧ fault.status = .invalidArgument

variable {first second : Buffer → Outcome Buffer} {bytes more : Bytes}

theorem Writes.andThen (writes : Writes first bytes) (writes' : Writes second more) :
    Writes (fun buffer => first buffer >>= second) (bytes ++ more) := by
  intro buffer
  rcases writes buffer with ⟨middle, run, content⟩
  rcases writes' middle with ⟨after, run', content'⟩
  refine ⟨after, ?_, by rw [content', content, List.append_assoc]⟩
  simp only [run]
  exact run'

theorem Refuses.andThen (refuses : Refuses first) :
    Refuses fun buffer => first buffer >>= second := by
  intro buffer
  rcases refuses buffer with ⟨fault, run, status⟩
  exact ⟨fault, by simp only [run]; rfl, status⟩

theorem Writes.andRefuses (writes : Writes first bytes) (refuses : Refuses second) :
    Refuses fun buffer => first buffer >>= second := by
  intro buffer
  rcases writes buffer with ⟨middle, run, -⟩
  rcases refuses middle with ⟨fault, run', status⟩
  refine ⟨fault, ?_, status⟩
  simp only [run]
  exact run'

theorem Writes.run (writes : Writes first bytes) (capacity : Capacity) :
    (do return (← first (.withCapacity capacity)).bytes) = (.ok bytes : Outcome Bytes) := by
  rcases writes (.withCapacity capacity) with ⟨after, run, content⟩
  rw [bytes_withCapacity, List.nil_append] at content
  rw [run, ← content]
  rfl

theorem Refuses.run (refuses : Refuses first) (capacity : Capacity) :
    ∃ fault, (do return (← first (.withCapacity capacity)).bytes) =
      (.error (.fault fault) : Outcome Bytes) ∧ fault.status = .invalidArgument := by
  rcases refuses (.withCapacity capacity) with ⟨fault, run, status⟩
  exact ⟨fault, by rw [run]; rfl, status⟩

theorem writes_append (bytes : Bytes) : Writes (fun buffer => .ok (buffer.append bytes)) bytes :=
  fun buffer => ⟨_, rfl, bytes_append buffer bytes⟩

theorem writes_byte (byte : UInt8) : Writes (fun buffer => .ok (buffer.byte byte)) [byte] :=
  Buffer.writes_append [byte]

theorem Writes.behind {write : Buffer → Outcome Buffer} {bytes : Bytes}
    (writes : Writes write bytes) (byte : UInt8) :
    Writes (fun buffer => write (buffer.byte byte)) ([byte] ++ bytes) :=
  (Buffer.writes_byte byte).andThen writes

theorem Refuses.behind {write : Buffer → Outcome Buffer} (refuses : Refuses write)
    (byte : UInt8) : Refuses fun buffer => write (buffer.byte byte) :=
  (Buffer.writes_byte byte).andRefuses refuses

theorem Writes.annotated {write : Buffer → Outcome Buffer} {bytes : Bytes}
    (writes : Writes write bytes) (note : Note) :
    Writes (fun buffer => annotate note (write buffer)) bytes := by
  intro buffer
  rcases writes buffer with ⟨after, run, content⟩
  exact ⟨after, by simp only [run, annotate], content⟩

theorem Refuses.annotated {write : Buffer → Outcome Buffer} (refuses : Refuses write)
    (note : Note) : Refuses fun buffer => annotate note (write buffer) := by
  intro buffer
  rcases refuses buffer with ⟨fault, run, status⟩
  exact ⟨fault.addNote note, by simp only [run, annotate]; rfl, status⟩

theorem writes_nothing : Writes Except.ok [] :=
  fun buffer => ⟨buffer, rfl, (List.append_nil _).symm⟩

theorem writes_varint {x : Number} (fits : x.Fits) : Writes (·.varint x) (Spelling.number x) := by
  intro buffer
  rcases fits.exists_nat with ⟨n, -, -, spelled⟩
  refine ⟨(buffer.reserve 5).val.append (Varint.encode n), ?_, ?_⟩
  · simp only [varint, spelled]
  · rw [bytes_append, bytes_reserve, Spelling.number, spelled, Option.getD_some]

theorem varint_unfit {x : Number} (unfit : ¬x.Fits) (buffer : Buffer) :
    buffer.varint x = raise (.notVarint x) := by
  simp only [varint, Varint.value?_unfit unfit]

theorem refuses_varint {x : Number} (unfit : ¬x.Fits) : Refuses (·.varint x) :=
  fun buffer => ⟨⟨.notVarint x, []⟩, varint_unfit unfit buffer, rfl⟩

theorem writes_blob {content : Bytes} (short : content.length ≤ Varint.limit) :
    Writes (·.blob content) (Spelling.blob content) := by
  have count := writes_varint (Number.fits_ofNat.mpr short)
  rw [Spelling.number_ofNat short] at count
  exact count.andThen (writes_append content)

theorem refuses_blob {content : Bytes} (long : ¬content.length ≤ Varint.limit) :
    Refuses (·.blob content) :=
  (refuses_varint fun fits => long (Number.fits_ofNat.mp fits)).andThen

theorem writes_text {content : String} (short : (Text.utf8 content).length ≤ Varint.limit) :
    Writes (·.text content) (Spelling.text content) :=
  writes_blob short

theorem writes_numbers {xs : List Number} (fits : ∀ x ∈ xs, x.Fits) :
    Writes (fun buffer => xs.foldlM varint buffer) (xs.flatMap Spelling.number) := by
  induction xs with
  | nil => exact writes_nothing
  | cons x xs ih =>
      exact (writes_varint (fits x List.mem_cons_self)).andThen
        (ih fun y present => fits y (List.mem_cons_of_mem _ present))

theorem refuses_numbers {xs : List Number} (unfit : ∃ x ∈ xs, ¬x.Fits) :
    Refuses fun buffer => xs.foldlM varint buffer := by
  induction xs with
  | nil =>
      rcases unfit with ⟨x, present, -⟩
      exact absurd present List.not_mem_nil
  | cons x xs ih =>
      by_cases fits : x.Fits
      · refine (writes_varint fits).andRefuses (ih ?_)
        rcases unfit with ⟨y, present, wrong⟩
        rcases List.mem_cons.mp present with rfl | later
        · exact absurd fits wrong
        · exact ⟨y, later, wrong⟩
      · exact (refuses_varint fits).andThen

theorem writes_varints {xs : List Number} (short : xs.length ≤ Varint.limit)
    (fits : ∀ x ∈ xs, x.Fits) : Writes (·.varints xs) (Spelling.numbers xs) := by
  have count := writes_varint (Number.fits_ofNat.mpr short)
  rw [Spelling.number_ofNat short] at count
  exact count.andThen (writes_numbers fits)

theorem refuses_varints {xs : List Number}
    (unfit : ¬(xs.length ≤ Varint.limit ∧ ∀ x ∈ xs, x.Fits)) : Refuses (·.varints xs) := by
  by_cases short : xs.length ≤ Varint.limit
  · refine (writes_varint (Number.fits_ofNat.mpr short)).andRefuses (refuses_numbers ?_)
    by_cases wrong : ∃ x ∈ xs, ¬x.Fits
    · exact wrong
    · refine absurd ⟨short, fun x present => ?_⟩ unfit
      by_cases fits : x.Fits
      · exact fits
      · exact absurd ⟨x, present, fits⟩ wrong
  · exact (refuses_varint fun fits => short (Number.fits_ofNat.mp fits)).andThen

end Buffer

section

variable {m : Type → Type} [Monad m] [LawfulMonad m] {σ α β : Type} {state after : σ} {a : α}

theorem run_bind_ok {action : ExceptT Problem (StateT σ m) α}
    {k : α → ExceptT Problem (StateT σ m) β} (run : action.run state = pure (.ok a, after)) :
    (action >>= k).run state = (k a).run after := by
  change (action.run state >>= fun result => ExceptT.bindCont k result.1 result.2) = _
  rw [run, pure_bind]
  rfl

theorem run_bind_error {action : ExceptT Problem (StateT σ m) α}
    {k : α → ExceptT Problem (StateT σ m) β} {problem : Problem}
    (run : action.run state = pure (.error problem, after)) :
    (action >>= k).run state = pure (.error problem, after) := by
  change (action.run state >>= fun result => ExceptT.bindCont k result.1 result.2) = _
  rw [run, pure_bind]
  rfl

end

section

variable {σ α β : Type} {action : ExceptT Problem (StateM σ) α}
  {k : α → ExceptT Problem (StateM σ) β} {state after : σ}

theorem run_bind_cases {result : Except Problem β}
    (run : (action >>= k).run state = (result, after)) :
    (∃ a middle, action.run state = (.ok a, middle) ∧ (k a).run middle = (result, after)) ∨
      ∃ problem, action.run state = (.error problem, after) ∧ result = .error problem := by
  cases first : action.run state with
  | mk outcome middle =>
      cases outcome with
      | ok a => exact .inl ⟨a, middle, rfl, (run_bind_ok first).symm.trans run⟩
      | error problem =>
          have same := (run_bind_error first).symm.trans run
          rw [← (Prod.mk.inj same).2]
          exact .inr ⟨problem, rfl, (Prod.mk.inj same).1.symm⟩

end

namespace Reader

variable {α β : Type} {reader : Reader α} {k : α → Reader β} {bytes more : Bytes} {a : α} {b : β}

/-- Whether a reader takes exactly the bytes, whatever follows them, and makes of them what is
given. -/
def Reads (reader : Reader α) (bytes : Bytes) (a : α) : Prop :=
  ∀ offset rest, reader.run ⟨offset, bytes ++ rest⟩ = (.ok a, ⟨offset + bytes.length, rest⟩)

def Finishes (reader : Reader α) (bytes : Bytes) (a : α) : Prop :=
  ∀ offset, (reader.run ⟨offset, bytes⟩).1 = .ok a

def Ends (reader : Reader α) (bytes : Bytes) (outcome : Outcome α) : Prop :=
  ∀ offset, (reader.run ⟨offset, bytes⟩).1 = outcome

theorem Finishes.parse (finishes : Finishes reader bytes a) : reader.parse bytes = .ok a :=
  finishes 0

theorem Reads.pure (a : α) : Reads (pure a) [] a := fun _ _ => rfl

theorem Reads.bind (reads : Reads reader bytes a) (reads' : Reads (k a) more b) :
    Reads (reader >>= k) (bytes ++ more) b := by
  intro offset rest
  have first := reads offset (more ++ rest)
  rw [List.append_assoc, run_bind_ok first, reads', List.length_append, Nat.add_assoc]

theorem Reads.map {f : α → β} (reads : Reads reader bytes a) :
    Reads (do return f (← reader)) bytes (f a) := by
  have mapped := reads.bind (k := fun a => return f a) (Reads.pure (f a))
  rwa [List.append_nil] at mapped

theorem Reads.ends {outcome : Outcome β} (reads : Reads reader bytes a)
    (ends : Ends (k a) more outcome) : Ends (reader >>= k) (bytes ++ more) outcome := by
  intro offset
  rw [run_bind_ok (reads offset more)]
  exact ends _

theorem Reads.finish (reads : Reads reader bytes a) (finishes : Finishes (k a) more b) :
    Finishes (reader >>= k) (bytes ++ more) b :=
  reads.ends finishes

theorem finishes_pure (a : α) : Finishes (pure a) [] a := fun _ => rfl

theorem ends_end {k : Unit → Reader β} {outcome : Outcome β} (ends : Ends (k ()) [] outcome) :
    Ends (expectEnd >>= k) [] outcome :=
  fun offset => ends offset

theorem finishes_end {k : Unit → Reader β} (finishes : Finishes (k ()) [] b) :
    Finishes (expectEnd >>= k) [] b :=
  ends_end finishes

theorem Finishes.lift {outcome : Outcome α} (known : outcome = .ok a)
    (finishes : Finishes (k a) bytes b) : Finishes (do k (← outcome)) bytes b := by
  subst known
  exact finishes

theorem ends_lift (outcome : Outcome α) : Ends (liftM outcome : Reader α) [] outcome := by
  intro offset
  cases outcome <;> rfl

theorem Ends.andReturn {f : α → β} {outcome : Outcome α} (ends : Ends reader bytes outcome) :
    Ends (do return f (← reader)) bytes (outcome.map f) := by
  intro offset
  cases run : reader.run ⟨offset, bytes⟩ with
  | mk result after =>
      have ended : result = outcome := (congrArg Prod.fst run).symm.trans (ends offset)
      subst ended
      cases result with
      | ok a =>
          rw [run_bind_ok run]
          rfl
      | error problem =>
          rw [run_bind_error run]
          rfl

theorem Reads.finish_end {f : α → β} (reads : Reads reader bytes a) :
    Finishes (do
      let a ← reader
      expectEnd
      return f a) bytes (f a) := by
  have last : Finishes (do
      expectEnd
      return f a) [] (f a) := finishes_end (finishes_pure _)
  have whole := reads.finish (k := fun a => do
    expectEnd
    return f a) last
  rwa [List.append_nil] at whole

theorem Reads.noting (reads : Reads reader bytes a) (note : Note) :
    Reads (Reader.noting note reader) bytes a := by
  intro offset rest
  change (annotate note (reader.run _).1, (reader.run _).2) = _
  rw [reads offset rest]
  rfl

theorem reads_byte (byte : UInt8) : Reads Reader.byte [byte] byte := fun _ _ => rfl

theorem reads_bytes (content : Bytes) : Reads (Reader.bytes content.length) content content := by
  intro offset rest
  change (if content.length ≤ (content ++ rest).length then
      (do
        set (Cursor.mk (offset + content.length) ((content ++ rest).drop content.length))
        return (content ++ rest).take content.length : Reader Bytes)
    else raise (.endOfData offset)).run ⟨offset, content ++ rest⟩ = _
  rw [if_pos (by rw [List.length_append]; omega), List.take_left, List.drop_left]
  rfl

theorem reads_nat {width n : Nat} (small : n < Nat.pow 256 width) :
    Reads (nat width) (Bytes.littleEndian width n) n := by
  have word := reads_bytes (Bytes.littleEndian width n)
  rw [Bytes.length_littleEndian] at word
  have spelled := word.map (f := Bytes.ofLittleEndian)
  rwa [Bytes.ofLittleEndian_littleEndian_of_lt small] at spelled

theorem reads_word (width : Nat) (n : Int) :
    Reads (nat width) (Bytes.littleEndian width (n % (1 <<< (8 * width) : Nat)).toNat)
      (n % (1 <<< (8 * width) : Nat)).toNat := by
  have power : 1 <<< (8 * width) = Nat.pow 256 width := by
    rw [Nat.one_shiftLeft, Nat.pow_mul]
    rfl
  have pos : (0 : Int) < Nat.pow 256 width := Int.natCast_pos.mpr (Nat.pow_pos (by decide))
  have low := Int.emod_nonneg n (Int.ne_of_gt pos)
  have high := Int.emod_lt_of_pos n pos
  rw [power]
  exact reads_nat (by omega)

theorem toInt_int32 (n : Int) :
    (Int32.ofNat (n % (1 <<< (8 * 4) : Nat)).toNat).toInt = n.bmod 4294967296 := by
  have power : ((1 <<< (8 * 4) : Nat) : Int) = 4294967296 := rfl
  rw [Int32.toInt_ofNat', power, Int32.size, Int.toNat_of_nonneg (by omega)]
  exact Int.emod_bmod n _

theorem toInt_int64 (n : Int) :
    (Int64.ofNat (n % (1 <<< (8 * 8) : Nat)).toNat).toInt = n.bmod 18446744073709551616 := by
  have power : ((1 <<< (8 * 8) : Nat) : Int) = 18446744073709551616 := rfl
  rw [Int64.toInt_ofNat', power, Int64.size, Int.toNat_of_nonneg (by omega)]
  exact Int.emod_bmod n _

theorem reads_int32 (n : Int32) :
    Reads int32 (Bytes.littleEndian 4 (n.toInt % (1 <<< (8 * 4) : Nat)).toNat) n := by
  have same : Int32.ofNat (n.toInt % (1 <<< (8 * 4) : Nat)).toNat = n :=
    Int32.toInt_inj.mp ((toInt_int32 n.toInt).trans n.toInt_bmod)
  have read := (reads_word 4 n.toInt).map (f := Int32.ofNat)
  rwa [same] at read

theorem reads_int64 (n : Int64) :
    Reads int64 (Bytes.littleEndian 8 (n.toInt % (1 <<< (8 * 8) : Nat)).toNat) n := by
  have same : Int64.ofNat (n.toInt % (1 <<< (8 * 8) : Nat)).toNat = n :=
    Int64.toInt_inj.mp ((toInt_int64 n.toInt).trans n.toInt_bmod)
  have read := (reads_word 8 n.toInt).map (f := Int64.ofNat)
  rwa [same] at read

theorem reads_float32 (x : Binary32) : Reads float32 (Bytes.littleEndian 4 x.bits.toNat) x := by
  have word : x.bits.toNat < Nat.pow 256 4 := x.bits.toNat_lt
  have read := (reads_nat word).map (f := fun n => Binary32.mk (UInt32.ofNat n))
  rwa [UInt32.ofNat_toNat] at read

theorem reads_float64 (x : Binary64) : Reads float64 (Bytes.littleEndian 8 x.bits.toNat) x := by
  have word : x.bits.toNat < Nat.pow 256 8 := x.bits.toNat_lt
  have read := (reads_nat word).map (f := fun n => Binary64.mk (UInt64.ofNat n))
  rwa [UInt64.ofNat_toNat] at read

theorem run_varintFrom {digits place total offset : Nat} {digit : UInt8} {rest : Bytes} :
    (varintFrom (digits + 1) place total).run ⟨offset, digit :: rest⟩ =
      (if 128 ≤ digit.toNat then varintFrom digits (place * 128) (total + digit.toNat % 128 * place)
      else if total + digit.toNat % 128 * place ≤ Varint.limit then
        return total + digit.toNat % 128 * place
      else do raise (.overlongVarint (← get).offset) : Reader Nat).run ⟨offset + 1, rest⟩ := by
  exact run_bind_ok (reads_byte digit offset rest)

theorem reads_varintFrom {digits place total n : Nat} (room : n < Nat.pow 128 (digits + 1))
    (small : total + n * place ≤ Varint.limit) :
    Reads (varintFrom (digits + 1) place total) (Varint.encode n) (total + n * place) := by
  induction digits generalizing place total n with
  | zero =>
      have last : n < 128 := room
      intro offset rest
      have digit : (UInt8.ofNat n).toNat = n := UInt8.toNat_ofNat_of_lt (show n < 256 by omega)
      rw [Varint.encode, if_pos last, List.singleton_append, run_varintFrom, digit,
        if_neg (by omega), Nat.mod_eq_of_lt last, if_pos small]
      rfl
  | succ digits ih =>
      intro offset rest
      by_cases last : n < 128
      · have digit : (UInt8.ofNat n).toNat = n := UInt8.toNat_ofNat_of_lt (show n < 256 by omega)
        rw [Varint.encode, if_pos last, List.singleton_append, run_varintFrom, digit,
          if_neg (by omega), Nat.mod_eq_of_lt last, if_pos small]
        rfl
      · have digit : (UInt8.ofNat (128 + n % 128)).toNat = 128 + n % 128 :=
          UInt8.toNat_ofNat_of_lt (show 128 + n % 128 < 256 by omega)
        have power : Nat.pow 128 (digits + 1 + 1) = Nat.pow 128 (digits + 1) * 128 := rfl
        have fewer : n / 128 < Nat.pow 128 (digits + 1) := by omega
        have sum : total + n % 128 * place + n / 128 * (place * 128) = total + n * place := by
          have split : n * place = (n % 128 + 128 * (n / 128)) * place := by rw [Nat.mod_add_div]
          rw [split, Nat.add_mul, Nat.add_assoc, Nat.mul_comm place, ← Nat.mul_assoc,
            Nat.mul_comm (n / 128)]
        have tail : Reads (varintFrom (digits + 1) (place * 128) (total + n % 128 * place))
            (Varint.encode (n / 128)) _ := ih fewer (by rw [sum]; exact small)
        rw [Varint.encode, if_neg last, List.cons_append, run_varintFrom, digit,
          if_pos (Nat.le_add_right _ _), Nat.add_mod_left, Nat.mod_mod, tail, sum,
          List.length_cons, Nat.add_right_comm, Nat.add_assoc]

theorem reads_varint {n : Nat} (small : n ≤ Varint.limit) : Reads varint (Varint.encode n) n := by
  have room : n < Nat.pow 128 (4 + 1) := Nat.lt_of_le_of_lt small (by decide)
  have read : Reads varint (Varint.encode n) (0 + n * 1) :=
    reads_varintFrom room (by rw [Nat.mul_one, Nat.zero_add]; exact small)
  rwa [Nat.mul_one, Nat.zero_add] at read

theorem reads_blob {content : Bytes} (short : content.length ≤ Varint.limit) :
    Reads blob (Spelling.blob content) content :=
  (reads_varint short).bind (reads_bytes content)

theorem reads_text {content : String} (short : (Text.utf8 content).length ≤ Varint.limit) :
    Reads text (Spelling.text content) (Text.dropMark content) := by
  intro offset rest
  have started : (get : Reader Cursor).run ⟨offset, Spelling.text content ++ rest⟩ =
      (.ok ⟨offset, Spelling.text content ++ rest⟩, ⟨offset, Spelling.text content ++ rest⟩) := rfl
  rw [text, run_bind_ok started, Spelling.text, run_bind_ok (reads_blob short offset rest),
    Text.ofUtf8?_utf8]
  rfl

theorem tag_text {content expected : String} (short : (Text.utf8 content).length ≤ Varint.limit)
    (plain : Text.dropMark content = content) (offset : Nat) (rest : Bytes) :
    (tag expected).run ⟨offset, Spelling.text content ++ rest⟩ =
      if content = expected then
        (.ok true, ⟨offset + (Spelling.text content).length, rest⟩)
      else (.ok false, ⟨offset, Spelling.text content ++ rest⟩) := by
  have read := reads_text short offset rest
  rw [plain, ExceptT.run] at read
  simp only [tag, ExceptT.run, read]

theorem reads_tag {content : String} (short : (Text.utf8 content).length ≤ Varint.limit)
    (plain : Text.dropMark content = content) :
    Reads (tag content) (Spelling.text content) true := by
  intro offset rest
  rw [tag_text short plain, if_pos rfl]

theorem reads_varintList {ns : List Nat} (small : ∀ n ∈ ns, n ≤ Varint.limit) :
    Reads (varintList ns.length) (ns.flatMap Varint.encode) (ns.map Number.ofNat) := by
  induction ns with
  | nil => exact Reads.pure []
  | cons n ns ih =>
      have first := reads_varint (small n List.mem_cons_self)
      have others := ih fun m present => small m (List.mem_cons_of_mem _ present)
      exact first.bind (others.map (f := (Number.ofNat n :: ·)))

theorem varint_ne_nil (n : Nat) : Varint.encode n ≠ [] := by
  rw [Varint.encode]
  split <;> exact List.cons_ne_nil _ _

theorem length_le_flatMap_varint (ns : List Nat) :
    ns.length ≤ (ns.flatMap Varint.encode).length := by
  induction ns with
  | nil => exact Nat.le_refl _
  | cons n ns ih =>
      have := List.length_pos_iff.mpr (varint_ne_nil n)
      rw [List.flatMap_cons, List.length_append, List.length_cons]
      omega

theorem run_guard (count : Nat) (cause : Cause) (reader : Reader α) (cursor : Cursor) :
    (do
      if (← remaining) < count then raise cause
      reader : Reader α).run cursor =
    if cursor.rest.length < count then (.error (.of cause), cursor) else reader.run cursor := by
  change (do
      if cursor.rest.length < count then raise cause
      reader : Reader α).run cursor = _
  split <;> rfl

theorem Reads.guarded {count : Nat} {cause : Cause} (reads : Reads reader bytes a)
    (enough : count ≤ bytes.length) :
    Reads (do
      if (← remaining) < count then raise cause
      reader) bytes a := by
  intro offset rest
  have passed : ¬(bytes ++ rest).length < count := by
    rw [List.length_append]
    omega
  rw [run_guard, if_neg passed]
  exact reads offset rest

theorem Finishes.guarded {count : Nat} {cause : Cause} (finishes : Finishes reader bytes a)
    (enough : count ≤ bytes.length) :
    Finishes (do
      if (← remaining) < count then raise cause
      reader) bytes a := by
  intro offset
  rw [run_guard, if_neg (Nat.not_lt.mpr enough)]
  exact finishes offset

theorem exists_nats {xs : List Number} (fits : ∀ x ∈ xs, x.Fits) :
    ∃ ns : List Nat, xs = ns.map Number.ofNat ∧ (∀ n ∈ ns, n ≤ Varint.limit) ∧
      xs.flatMap Spelling.number = ns.flatMap Varint.encode := by
  induction xs with
  | nil => exact ⟨[], rfl, fun _ present => absurd present List.not_mem_nil, rfl⟩
  | cons x xs ih =>
      rcases (fits x List.mem_cons_self).exists_nat with ⟨n, small, rfl, -⟩
      rcases ih fun y present => fits y (List.mem_cons_of_mem _ present) with
        ⟨ns, rfl, smalls, spelled⟩
      refine ⟨n :: ns, rfl, ?_, ?_⟩
      · intro m present
        rcases List.mem_cons.mp present with rfl | later
        · exact small
        · exact smalls m later
      · rw [List.flatMap_cons, List.flatMap_cons, spelled, Spelling.number_ofNat small]

theorem reads_number {n : Nat} (fits : (Number.ofNat n).Fits) :
    Reads varint (Spelling.number (.ofNat n)) n := by
  have small := Number.fits_ofNat.mp fits
  rw [Spelling.number_ofNat small]
  exact reads_varint small

theorem reads_varints {xs : List Number} (short : xs.length ≤ Varint.limit)
    (fits : ∀ x ∈ xs, x.Fits) : Reads varints (Spelling.numbers xs) xs := by
  rcases exists_nats fits with ⟨ns, rfl, smalls, spelled⟩
  rw [Spelling.numbers, spelled, List.length_map]
  rw [List.length_map] at short
  refine (reads_varint short).bind ?_
  exact (reads_varintList smalls).guarded (length_le_flatMap_varint ns)

end Reader

end ExprWire
