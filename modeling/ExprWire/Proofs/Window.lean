import ExprWire.Proofs.Grammar
import ExprWire.Wire.Window
/-!
Reading in place goes where the reader goes that has the bytes ahead in hand. So the position never
leaves the window nor turns back, and what is read comes of the bytes passed over and of nothing
else.
-/

namespace ExprWire

namespace Reading

def width? : Reading → Option Nat
  | .byte => some 1
  | .bytes count => some count
  | .uint32 | .int32 | .float32 => some 4
  | .int64 | .float64 => some 8
  | .varint | .blob | .text => none

end Reading

namespace Window

open Reader (Request Answer)

variable {α β : Type} (window : Window)

@[simp] theorem length_bytes : window.bytes.length = window.size := by
  have := window.inside
  rw [bytes, List.length_take, List.length_drop]
  omega

theorem cell?_eq (position : Nat) : window.cell? position = window.bytes[position]? := by
  rw [cell?, bytes, List.getElem?_take, List.getElem?_drop]

theorem view_eq {width position : Nat} (room : position + width ≤ window.size) :
    window.view width position =
      .ok (Bytes.ofLittleEndian (window.between position (position + width))) := by
  rw [view, if_pos room, between, bytes, List.take_take, Nat.min_eq_left room, List.drop_take,
    List.drop_drop, Nat.add_sub_cancel_left]

theorem drop_bytes {low high : Nat} (ordered : low ≤ high) (inside : high ≤ window.size) :
    window.bytes.drop low = window.between low high ++ window.bytes.drop high := by
  have front : low ≤ (window.bytes.take high).length := by
    rw [List.length_take, length_bytes]
    omega
  rw [between, ← List.drop_append_of_le_length front, List.take_append_drop]

theorem length_between {low high : Nat} (inside : high ≤ window.size) :
    (window.between low high).length = high - low := by
  rw [between, List.length_drop, List.length_take, length_bytes]
  omega

theorem run_required (count : Nat) (scan : Scan α) (position : Nat) :
    (do
      window.require count
      scan : Scan α).run position =
    if position + count ≤ window.size then scan.run position
    else (.error (.of (.endOfData position)), position) := by
  have required : (window.require count).run position =
      if window.size < position + count then (.error (.of (.endOfData position)), position)
      else (.ok (), position) := by
    change (if window.size < position + count then raise (.endOfData position)
      else pure () : Scan Unit).run position = _
    split <;> rfl
  by_cases room : position + count ≤ window.size
  · rw [if_neg (Nat.not_lt.mpr room)] at required
    rw [if_pos room, run_bind_ok required]
  · rw [if_pos (Nat.not_le.mp room)] at required
    rw [if_neg room, run_bind_error required]
    rfl

theorem run_byte (position : Nat) : window.byte.run position =
    if position + 1 ≤ window.size then (.ok (window.cell? position), position + 1)
    else (.error (.of (.endOfData position)), position) :=
  window.run_required 1 _ position

theorem run_slice (count position : Nat) : (window.slice count).run position =
    if position + count ≤ window.size then
      (.ok (window.between position (position + count)), position + count)
    else (.error (.of (.endOfData position)), position) :=
  window.run_required count _ position

theorem run_word (width position : Nat) : (window.word width).run position =
    if position + width ≤ window.size then
      (.ok (Bytes.ofLittleEndian (window.between position (position + width))), position + width)
    else (.error (.of (.endOfData position)), position) := by
  rw [word, run_required]
  by_cases room : position + width ≤ window.size
  · rw [if_pos room, if_pos room]
    -- with room made sure of, the view has no reason to refuse
    change (do
        let n ← window.view width position
        set (position + width)
        return n : Scan Nat).run position = _
    rw [window.view_eq room]
    rfl
  · rw [if_neg room, if_neg room]

def cursor (position : Nat) : Cursor := ⟨position, window.bytes.drop position⟩

/-- Where one may get to from a position, and how one may fail. -/
structure Leads (position : Nat) (outcome : Outcome α) (after : Nat) : Prop where
  onwards : position ≤ after
  inside : after ≤ window.size
  blames : FailsFor (·.category = .invalidArgument) outcome

/-- That a scan goes where a reader goes, from any position of the window. -/
def Tracks (scan : Scan α) (reader : Reader α) : Prop :=
  ∀ position ≤ window.size, ∃ outcome after, scan.run position = (outcome, after) ∧
    reader.run (window.cursor position) = (outcome, window.cursor after) ∧
    window.Leads position outcome after

section

variable {window} {scan : Scan α} {reader : Reader α} {k : α → Scan β} {k' : α → Reader β}

theorem tracks_pure (a : α) : window.Tracks (pure a) (pure a) :=
  fun position inside => ⟨.ok a, position, rfl, rfl, Nat.le_refl _, inside, failsFor_ok a⟩

theorem tracks_raise {cause : Cause} (invalid : cause.category = .invalidArgument) :
    window.Tracks (raise cause : Scan α) (raise cause) :=
  fun position inside =>
    ⟨.error (.of cause), position, rfl, rfl, Nat.le_refl _, inside, failsFor_raise invalid⟩

theorem Tracks.bind (tracks : window.Tracks scan reader) (tracks' : ∀ a, window.Tracks (k a) (k' a)) :
    window.Tracks (scan >>= k) (reader >>= k') := by
  intro position inside
  obtain ⟨outcome, middle, run, read, leads⟩ := tracks position inside
  cases outcome with
  | ok a =>
      obtain ⟨outcome, after, run', read', leads'⟩ := tracks' a middle leads.inside
      exact ⟨outcome, after, (run_bind_ok run).trans run', (run_bind_ok read).trans read',
        Nat.le_trans leads.onwards leads'.onwards, leads'.inside, leads'.blames⟩
  | error problem =>
      refine ⟨.error problem, middle, run_bind_error run, run_bind_error read, leads.onwards,
        leads.inside, ?_⟩
      rintro _ ⟨⟩
      exact leads.blames problem rfl

theorem Tracks.map {f : α → β} (tracks : window.Tracks scan reader) :
    window.Tracks (do return f (← scan)) (do return f (← reader)) :=
  tracks.bind fun a => tracks_pure (f a)

theorem Tracks.located {k : Nat → Scan α} {k' : Nat → Reader α}
    (tracks : ∀ position, window.Tracks (k position) (k' position)) :
    window.Tracks (do k (← get)) (do k' (← get).offset) :=
  fun position inside => tracks position position inside

end

theorem tracks_behindByte {k : Option UInt8 → Scan α} {k' : UInt8 → Reader α}
    (tracks : ∀ byte, window.Tracks (k (some byte)) (k' byte)) :
    window.Tracks (window.byte >>= k) (Reader.byte >>= k') := by
  intro position inside
  have read := window.run_byte position
  by_cases room : position + 1 ≤ window.size
  · have here : position < window.bytes.length := by rwa [length_bytes]
    have ahead : window.cursor position =
        ⟨position, [window.bytes[position]] ++ window.bytes.drop (position + 1)⟩ := by
      rw [cursor, List.drop_eq_getElem_cons here, List.singleton_append]
    rw [if_pos room, cell?_eq, List.getElem?_eq_getElem here] at read
    obtain ⟨outcome, after, run, run', leads⟩ := tracks window.bytes[position] _ room
    refine ⟨outcome, after, (run_bind_ok read).trans run, ?_,
      Nat.le_of_succ_le leads.onwards, leads.inside, leads.blames⟩
    rw [ahead, run_bind_ok (Reader.reads_byte _ _ _)]
    exact run'
  · have none : window.bytes.drop position = [] :=
      List.drop_eq_nil_of_le (by rw [length_bytes]; omega)
    have ahead : window.cursor position = ⟨position, []⟩ := by rw [cursor, none]
    have read' : Reader.byte.run (window.cursor position) =
        (.error (.of (.endOfData position)), window.cursor position) := by
      rw [ahead]
      rfl
    rw [if_neg room] at read
    exact ⟨_, _, run_bind_error read, run_bind_error read', Nat.le_refl _, inside,
      failsFor_raise rfl⟩

theorem tracks_slice (count : Nat) : window.Tracks (window.slice count) (Reader.bytes count) := by
  intro position inside
  have enough : count ≤ (window.bytes.drop position).length ↔ position + count ≤ window.size := by
    rw [List.length_drop, length_bytes]
    omega
  rw [run_slice, cursor, Reader.run_bytes]
  by_cases room : position + count ≤ window.size
  · rw [if_pos room, if_pos (enough.mpr room), List.drop_drop, between, List.drop_take,
      Nat.add_sub_cancel_left]
    exact ⟨_, _, rfl, rfl, Nat.le_add_right _ _, room, failsFor_ok _⟩
  · rw [if_neg room, if_neg (mt enough.mp room)]
    exact ⟨_, _, rfl, rfl, Nat.le_refl _, inside, failsFor_raise rfl⟩

theorem tracks_word (width : Nat) : window.Tracks (window.word width) (Reader.nat width) := by
  have same : window.word width = do return Bytes.ofLittleEndian (← window.slice width) := by
    funext position
    change (window.word width).run position =
      (do return Bytes.ofLittleEndian (← window.slice width) : Scan Nat).run position
    have sliced := window.run_slice width position
    rw [run_word]
    by_cases room : position + width ≤ window.size
    · rw [if_pos room] at sliced
      rw [if_pos room, run_bind_ok sliced]
      rfl
    · rw [if_neg room] at sliced
      rw [if_neg room, run_bind_error sliced]
      rfl
  rw [same]
  exact (window.tracks_slice width).map

theorem tracks_varintFrom (digits place total : Nat) :
    window.Tracks (window.varintFrom digits place total)
      (Reader.varintFrom digits place total) := by
  have tracks_overlong : window.Tracks (do raise (.overlongVarint (← get)) : Scan Nat)
      (do raise (.overlongVarint (← get).offset)) :=
    Tracks.located fun position => tracks_raise rfl
  induction digits generalizing place total with
  | zero => exact tracks_overlong
  | succ digits ih =>
      refine window.tracks_behindByte fun digit => ?_
      change window.Tracks
        (if Word.and digit.toNat 128 = 0 then
          if Varint.limit < total + (Word.and digit.toNat 127).toNat * place then
            do raise (.overlongVarint (← get))
          else return total + (Word.and digit.toNat 127).toNat * place
        else window.varintFrom digits (place * 128)
          (total + (Word.and digit.toNat 127).toNat * place))
        (if 128 ≤ digit.toNat then
          Reader.varintFrom digits (place * 128) (total + digit.toNat % 128 * place)
        else if total + digit.toNat % 128 * place ≤ Varint.limit then
          return total + digit.toNat % 128 * place
        else do raise (.overlongVarint (← get).offset))
      -- the same digit, taken apart by its bits and by its value
      have last := Word.and_highest_eq_zero_iff digit.toNat digit.toNat_lt
      rw [Word.and_septet, Int.toNat_natCast]
      by_cases continued : 128 ≤ digit.toNat
      · rw [if_neg (mt last.mp (Nat.not_lt.mpr continued)), if_pos continued]
        exact ih _ _
      · rw [if_pos (last.mpr (Nat.not_le.mp continued)), if_neg continued]
        by_cases small : total + digit.toNat % 128 * place ≤ Varint.limit
        · rw [if_neg (Nat.not_lt.mpr small), if_pos small]
          exact tracks_pure _
        · rw [if_pos (Nat.not_le.mp small), if_neg small]
          exact tracks_overlong

theorem tracks_varint : window.Tracks window.varint Reader.varint :=
  window.tracks_varintFrom 5 1 0

theorem tracks_blob : window.Tracks window.blob Reader.blob :=
  window.tracks_varint.bind window.tracks_slice

theorem tracks_decoded (start : Nat) (content : Bytes) : window.Tracks
    (match Text.ofUtf8? content with
      | some text => return text
      | none => raise (.notUtf8 start) : Scan String)
    (match Text.ofUtf8? content with
      | some text => return text
      | none => raise (.notUtf8 start) : Reader String) := by
  cases Text.ofUtf8? content with
  | some text => exact tracks_pure text
  | none => exact tracks_raise rfl

theorem tracks_text : window.Tracks window.text Reader.text :=
  Tracks.located fun start => window.tracks_blob.bind (window.tracks_decoded start)

theorem tracks_tag (expected : String) :
    window.Tracks (window.tag expected) (Reader.tag expected) := by
  intro position inside
  obtain ⟨outcome, after, run, read, leads⟩ := window.tracks_text position inside
  rw [ExceptT.run] at run read
  cases outcome with
  | ok found =>
      by_cases same : found = expected
      · refine ⟨.ok true, after, ?_, ?_, leads.onwards, leads.inside, failsFor_ok true⟩
        · simp only [tag, ExceptT.run, run, if_pos same]
        · simp only [Reader.tag, ExceptT.run, read, if_pos same]
      · refine ⟨.ok false, position, ?_, ?_, Nat.le_refl _, inside, failsFor_ok false⟩
        · simp only [tag, ExceptT.run, run, if_neg same]
        · simp only [Reader.tag, ExceptT.run, read, if_neg same]
  | error problem =>
      obtain ⟨fault, rfl, invalid⟩ := leads.blames problem rfl
      have blamed : (Problem.fault fault).blames = true := decide_eq_true invalid
      refine ⟨.ok false, position, ?_, ?_, Nat.le_refl _, inside, failsFor_ok false⟩
      · simp only [tag, ExceptT.run, run, if_pos blamed]
      · simp only [Reader.tag, ExceptT.run, read]

theorem isEmpty_ahead (position : Nat) :
    (window.bytes.drop position).isEmpty = decide (window.size ≤ position) := by
  rw [Bool.eq_iff_iff, List.isEmpty_iff, List.drop_eq_nil_iff, length_bytes, decide_eq_true_iff]

theorem tracks_atEnd : window.Tracks window.atEnd Reader.atEnd := by
  intro position inside
  refine ⟨.ok (decide (window.size ≤ position)), position, rfl, ?_, Nat.le_refl _, inside,
    failsFor_ok _⟩
  rw [← isEmpty_ahead]
  rfl

theorem tracks_expectEnd : window.Tracks window.expectEnd Reader.expectEnd := by
  intro position inside
  have asked : window.atEnd.run position = (.ok (decide (window.size ≤ position)), position) := rfl
  have asked' : Reader.expectEnd.run (window.cursor position) =
      (if (window.bytes.drop position).isEmpty then return () else raise (.trailingData position) :
        Reader Unit).run (window.cursor position) := rfl
  rw [isEmpty_ahead] at asked'
  by_cases ended : window.size ≤ position
  · rw [decide_eq_true ended] at asked asked'
    exact ⟨_, _, run_bind_ok asked, asked', Nat.le_refl _, inside, failsFor_ok ()⟩
  · rw [decide_eq_false ended] at asked asked'
    exact ⟨_, _, run_bind_ok asked, asked', Nat.le_refl _, inside, failsFor_raise rfl⟩

theorem tracks_respond (request : Request) :
    window.Tracks (window.respond request) (Reader.respond request) := by
  cases request with
  | tag expected => exact (window.tracks_tag expected).map
  | atEnd => exact window.tracks_atEnd.map
  | expectEnd => exact window.tracks_expectEnd.bind fun _ => tracks_pure Answer.done
  | read reading =>
      -- the reader makes the answer of a call in more steps, which come to one
      cases reading
      all_goals simp only [respond, perform, Reader.respond, Reader.perform, Reader.int32,
        Reader.int64, Reader.float32, Reader.float64, bind_assoc, pure_bind]
      case byte => exact window.tracks_behindByte fun byte => tracks_pure _
      case bytes count => exact (window.tracks_slice count).map
      case varint => exact window.tracks_varint.map
      case blob => exact window.tracks_blob.map
      case text => exact window.tracks_text.map
      case uint32 | int32 | float32 => exact (window.tracks_word 4).map
      case int64 | float64 => exact (window.tracks_word 8).map

/-- That a scan takes as many bytes as it is wide, or none if there are fewer ahead. -/
def Sized (scan : Scan α) (width : Nat) : Prop :=
  ∀ position, if position + width ≤ window.size then
      ∃ a, scan.run position = (.ok a, position + width)
    else scan.run position = (.error (.of (.endOfData position)), position)

section

variable {window} {scan : Scan α} {width : Nat}

theorem Sized.of_run {result : Nat → α} (run : ∀ position, scan.run position =
    if position + width ≤ window.size then (.ok (result position), position + width)
    else (.error (.of (.endOfData position)), position)) : window.Sized scan width := by
  intro position
  rw [run]
  split
  · exact ⟨_, rfl⟩
  · rfl

theorem Sized.map {f : α → β} (sized : window.Sized scan width) :
    window.Sized (do return f (← scan)) width := by
  intro position
  have run := sized position
  split
  · rename_i room
    rw [if_pos room] at run
    obtain ⟨a, run⟩ := run
    exact ⟨f a, run_bind_ok run⟩
  · rename_i short
    rw [if_neg short] at run
    exact run_bind_error run

end

theorem sized_respond {reading : Reading} {width : Nat} (known : reading.width? = some width) :
    window.Sized (window.respond (.read reading)) width := by
  have word (width : Nat) : window.Sized (window.word width) width :=
    .of_run (window.run_word width)
  cases reading <;> cases known
  case byte => exact (Sized.of_run window.run_byte).map
  case bytes => exact (Sized.of_run (window.run_slice width)).map
  case uint32 | int32 | float32 => exact (word 4).map
  case int64 | float64 => exact (word 8).map

end Window

namespace Reader

theorem exists_exact (reading : Reading) : ∃ spells, Exact (perform reading) spells := by
  have word (width : Nat) : Exact (nat width) _ := (exact_bytes width).map
  cases reading with
  | byte => exact ⟨_, exact_byte.map⟩
  | bytes count => exact ⟨_, (exact_bytes count).map⟩
  | varint => exact ⟨_, exact_varint.map⟩
  | blob => exact ⟨_, exact_blob.map⟩
  | text => exact ⟨_, exact_text.map⟩
  | uint32 => exact ⟨_, (word 4).map⟩
  | int32 => exact ⟨_, (word 4).map.map⟩
  | int64 => exact ⟨_, (word 8).map.map⟩
  | float32 => exact ⟨_, (word 4).map.map⟩
  | float64 => exact ⟨_, (word 8).map.map⟩

theorem exists_content {reading : Reading} {answer : Answer} {cursor after : Cursor}
    (run : (respond (.read reading)).run cursor = (.ok answer, after)) :
    ∃ taken content, cursor.rest = taken ++ after.rest ∧ answer = .read content ∧
      Reads (respond (.read reading)) taken answer := by
  obtain ⟨spells, exact⟩ := exists_exact reading
  have exact' : Exact (respond (.read reading)) _ := exact.map
  obtain ⟨taken, ahead, content, spelled, made⟩ := exact'.spelled run
  exact ⟨taken, content, ahead, made, exact'.reads ⟨content, spelled, made⟩⟩

theorem tag_spelled {spelled : Bytes} {expected : String} (text : Grammar.Text spelled expected) :
    Reads (tag expected) spelled true := by
  intro offset rest
  have read := exact_text.reads text offset rest
  rw [ExceptT.run] at read
  simp only [tag, ExceptT.run, read, if_pos]

theorem tag_unspelled {expected : String} {cursor : Cursor}
    (unspelled : ¬∃ spelled rest, cursor.rest = spelled ++ rest ∧ Grammar.Text spelled expected) :
    (tag expected).run cursor = (.ok false, cursor) := by
  cases run : text.run cursor with
  | mk outcome after =>
      have read := run
      rw [ExceptT.run] at read
      cases outcome with
      | ok found =>
          have other : found ≠ expected := by
            rintro rfl
            obtain ⟨spelled, ahead, text⟩ := exact_text.spelled run
            exact unspelled ⟨spelled, after.rest, ahead, text⟩
          simp only [tag, ExceptT.run, read, if_neg other]
      | error problem => simp only [tag, ExceptT.run, read]

end Reader

namespace Window

open Reader (Request Answer Turn)

variable (window : Window)

theorem respond_read {reading : Reading} {position after : Nat} {answer : Answer}
    (inside : position ≤ window.size)
    (run : (window.respond (.read reading)).run position = (.ok answer, after)) :
    (∃ content, answer = .read content) ∧
    ∀ (other : Window) (front rest : Bytes),
      other.bytes = front ++ window.between position after ++ rest →
      (other.respond (.read reading)).run front.length =
        (.ok answer, front.length + (after - position)) := by
  obtain ⟨_, _, run', read, leads⟩ := window.tracks_respond (.read reading) position inside
  cases run.symm.trans run'
  obtain ⟨taken, content, ahead, made, reads⟩ := Reader.exists_content read
  -- both parts end where the bytes that are left begin
  have passed : taken = window.between position after :=
    List.append_cancel_right (ahead.symm.trans (window.drop_bytes leads.onwards leads.inside))
  refine ⟨⟨content, made⟩, fun other front rest placed => ?_⟩
  have here : front.length ≤ other.size := by
    rw [← other.length_bytes, placed, List.length_append, List.length_append]
    omega
  have ahead' : other.cursor front.length = ⟨front.length, taken ++ rest⟩ := by
    rw [cursor, placed, passed, List.append_assoc, List.drop_left]
  obtain ⟨outcome, last, run'', read', -⟩ := other.tracks_respond (.read reading) front.length here
  rw [ahead', reads] at read'
  obtain ⟨same, moved⟩ := Prod.mk.inj read'
  rw [run'', ← same, ← window.length_between leads.inside, ← passed]
  exact congrArg (Prod.mk _) (Cursor.mk.inj moved).1.symm

theorem respond_tag {position : Nat} (inside : position ≤ window.size) (expected : String) :
    (∀ spelled rest, window.bytes.drop position = spelled ++ rest →
      Grammar.Text spelled expected →
        (window.respond (.tag expected)).run position =
          (.ok (.truth true), position + spelled.length)) ∧
    ((¬∃ spelled rest, window.bytes.drop position = spelled ++ rest ∧
      Grammar.Text spelled expected) →
        (window.respond (.tag expected)).run position = (.ok (.truth false), position)) := by
  obtain ⟨outcome, after, run, read, -⟩ := window.tracks_respond (.tag expected) position inside
  rw [run]
  constructor
  · intro spelled rest ahead text
    have found := (Reader.tag_spelled text).map (f := Answer.truth) position rest
    rw [← ahead] at found
    obtain ⟨same, moved⟩ := Prod.mk.inj (read.symm.trans found)
    exact Prod.ext same (Cursor.mk.inj moved).1
  · intro unspelled
    have missed : (Reader.tag expected).run (window.cursor position) = _ :=
      Reader.tag_unspelled unspelled
    have answered := run_bind_ok (k := fun found => return Answer.truth found) missed
    obtain ⟨same, moved⟩ := Prod.mk.inj (read.symm.trans answered)
    exact Prod.ext same (Cursor.mk.inj moved).1

/-- That a turn begins in the window and goes as the window answers its request. -/
structure Taken (turn : Turn) : Prop where
  inside : turn.before ≤ window.size
  run : (window.respond turn.request).run turn.before = (turn.outcome, turn.after)
  remaining : turn.remaining = window.remaining turn.after

theorem serve_taken {position : Nat} (inside : position ≤ window.size) (requests : List Request) :
    Reader.serve (window.cursor position) requests = window.serve position requests ∧
    ∀ turn ∈ window.serve position requests, window.Taken turn := by
  induction requests generalizing position with
  | nil => exact ⟨rfl, fun turn listed => absurd listed List.not_mem_nil⟩
  | cons request requests ih =>
      obtain ⟨outcome, after, run, read, leads⟩ := window.tracks_respond request position inside
      obtain ⟨same, others⟩ := ih leads.inside
      have left : ((window.cursor after).rest.length : Int) = window.remaining after := by
        have := leads.inside
        rw [cursor, List.length_drop, length_bytes, remaining]
        omega
      rw [Reader.serve, serve, run, read]
      simp only [left, same]
      refine ⟨rfl, fun turn listed => ?_⟩
      rcases List.mem_cons.mp listed with rfl | later
      · exact ⟨inside, run, rfl⟩
      · exact others turn later

/-- However a window is read, and whatever fails on the way, the position stays in the window and
never turns back; with the bytes ahead it makes up the size, and a failure is an invalid argument.
What a call has read comes of the bytes it has passed over, wherever they stand. A call of known
width takes that many bytes, or fails and takes none. Asking for a text does not fail: the text is
passed over if it comes next, and otherwise the position is where it was. -/
theorem reading_stays_inside (requests : List Request) :
    Reader.serve (.start window.bytes) requests = window.serve 0 requests ∧
    ∀ turn ∈ window.serve 0 requests,
      turn.before ≤ turn.after ∧ turn.after ≤ window.size ∧
      turn.after + turn.remaining = window.size ∧
      FailsFor (·.category = .invalidArgument) turn.outcome ∧
      (∀ reading answer, turn.request = .read reading → turn.outcome = .ok answer →
        (∃ content, answer = .read content) ∧
        ∀ (other : Window) (front rest : Bytes),
          other.bytes = front ++ window.between turn.before turn.after ++ rest →
          (other.respond turn.request).run front.length =
            (.ok answer, front.length + (turn.after - turn.before))) ∧
      (∀ reading width, turn.request = .read reading → reading.width? = some width →
        if turn.before + width ≤ window.size then
          (∃ answer, turn.outcome = .ok answer) ∧ turn.after = turn.before + width
        else turn.outcome = raise (.endOfData turn.before) ∧ turn.after = turn.before) ∧
      ∀ expected, turn.request = .tag expected →
        (∀ spelled rest, window.bytes.drop turn.before = spelled ++ rest →
          Grammar.Text spelled expected →
            turn.outcome = .ok (.truth true) ∧ turn.after = turn.before + spelled.length) ∧
        ((¬∃ spelled rest, window.bytes.drop turn.before = spelled ++ rest ∧
          Grammar.Text spelled expected) →
            turn.outcome = .ok (.truth false) ∧ turn.after = turn.before) := by
  obtain ⟨same, taken⟩ := window.serve_taken (Nat.zero_le _) requests
  refine ⟨same, fun turn listed => ?_⟩
  obtain ⟨inside, run, left⟩ := taken turn listed
  obtain ⟨_, _, run', -, leads⟩ := window.tracks_respond turn.request turn.before inside
  cases run.symm.trans run'
  refine ⟨leads.onwards, leads.inside, ?_, leads.blames, ?_, ?_, ?_⟩
  · rw [left, remaining]
    omega
  · intro reading answer asked given
    rw [asked, given] at run
    rw [asked]
    exact window.respond_read inside run
  · intro reading width asked known
    have sized := window.sized_respond known turn.before
    rw [← asked, run] at sized
    split at sized
    · rename_i room
      obtain ⟨answer, given⟩ := sized
      rw [if_pos room]
      exact ⟨⟨answer, (Prod.mk.inj given).1⟩, (Prod.mk.inj given).2⟩
    · rename_i short
      rw [if_neg short]
      exact Prod.mk.inj sized
  · intro expected asked
    obtain ⟨found, missed⟩ := window.respond_tag inside expected
    rw [asked] at run
    rw [run] at found missed
    exact ⟨fun spelled rest ahead text => Prod.mk.inj (found spelled rest ahead text),
      fun unspelled => Prod.mk.inj (missed unspelled)⟩

def hostile : Window := ⟨[9, 3, 0x61, 0x62, 0x63, 2, 0xc3, 0x28, 0x85, 7], 1, 8, by decide⟩

def probes : List Request :=
  [.tag "abd", .tag "abc", .tag "abc", .read .text, .read .varint, .read .uint32, .expectEnd]

theorem reading_stays_inside_hostile :
    (hostile.serve 0 probes).map (fun turn => (turn.before, turn.after)) =
      [(0, 0), (0, 4), (4, 4), (4, 7), (7, 8), (8, 8), (8, 8)] ∧
    Reader.serve (.start hostile.bytes) probes = hostile.serve 0 probes ∧
    ∀ turn ∈ hostile.serve 0 probes, turn.after ≤ 8 ∧ turn.after + turn.remaining = 8 := by
  obtain ⟨same, stays⟩ := hostile.reading_stays_inside probes
  refine ⟨by decide +kernel, same, fun turn listed => ?_⟩
  obtain ⟨-, inside, left, -⟩ := stays turn listed
  exact ⟨inside, left⟩

end Window

end ExprWire
