import ExprWire.Proofs.Checksum
import ExprWire.Proofs.Layout
/-!
The binary form as a grammar. What a byte string spells is said here without the reader, and the
reader accepts exactly what is spelled; so no byte string spells two containers.
-/

namespace ExprWire

namespace Grammar

variable {α : Type}

/-- Digits of base 128, least significant first; all but the last carry the continuation bit. -/
inductive Digits : Bytes → Nat → Prop
  | last {digit : UInt8} (small : digit.toNat < 128) : Digits [digit] digit.toNat
  | next {digit : UInt8} {digits : Bytes} {n : Nat} (continued : 128 ≤ digit.toNat)
      (others : Digits digits n) : Digits (digit :: digits) (digit.toNat - 128 + 128 * n)

def Numeral (bytes : Bytes) (n : Nat) : Prop :=
  Digits bytes n ∧ bytes.length ≤ 5 ∧ n ≤ Varint.limit

def Index (bytes : Bytes) (x : Number) : Prop := ∃ n, Numeral bytes n ∧ x = .ofNat n

inductive Items (spells : Bytes → α → Prop) : Bytes → List α → Prop
  | nil : Items spells [] []
  | cons {bytes others : Bytes} {item : α} {items : List α} (first : spells bytes item)
      (rest : Items spells others items) : Items spells (bytes ++ others) (item :: items)

def Indices (bytes : Bytes) (xs : List Number) : Prop :=
  ∃ count items, bytes = count ++ items ∧ Numeral count xs.length ∧ Items Index items xs

def Blob (bytes content : Bytes) : Prop :=
  ∃ size, bytes = size ++ content ∧ Numeral size content.length

def Text (bytes : Bytes) (text : String) : Prop :=
  ∃ raw, Blob bytes (Text.utf8 raw) ∧ (raw = "\uFEFF" ++ text ∨ raw = text ∧ Text.Unmarked text)

def Slot (bytes : Bytes) : Option Number → Prop
  | none => bytes = [0]
  | some index => ∃ rest, bytes = 1 :: rest ∧ Index rest index

/-- What stands behind the tag of a step. -/
def Fields (tag : Nat) (bytes : Bytes) (step : Step) : Prop :=
  match tag with
  | 1 => ∃ name, Text bytes name ∧ step = .codec name
  | 2 => ∃ payload slot values exprs a b c d, bytes = a ++ (b ++ (c ++ d)) ∧ Blob a payload ∧
      Slot b slot ∧ Indices c values ∧ Indices d exprs ∧ step = .value payload slot values exprs
  | 3 => ∃ index, Index bytes index ∧ step = .literal index
  | 4 => ∃ key, Text bytes key ∧ step = .leaf key
  | 5 => ∃ key, Text bytes key ∧ step = .placeholder key
  | 6 => ∃ operator deps a b, bytes = a ++ b ∧ Index a operator ∧ Indices b deps ∧
      step = .apply operator deps
  | 7 => ∃ index, Index bytes index ∧ step = .outputValue index
  | 8 => ∃ index, Index bytes index ∧ step = .outputExpr index
  | _ => False

def Step (bytes : Bytes) (step : ExprWire.Step) : Prop :=
  ∃ tag fields, bytes = tag :: fields ∧ Fields tag.toNat fields step

def Body (bytes : Bytes) (container : ExprWire.Container) : Prop :=
  ∃ version a b c d e, bytes = a ++ (b ++ (c ++ (d ++ e))) ∧ Index a version ∧
    container.version = some version ∧ Numeral b container.steps.length ∧
    Items Step c container.steps ∧ Indices d container.outputValues ∧
    Indices e container.outputExprs

/-- The magic bytes, a body, and the checksum of both with its least significant byte first. -/
def Container (bytes : Bytes) (container : ExprWire.Container) : Prop :=
  ∃ body, Body body container ∧ bytes = Container.magic ++ body ++
    Bytes.littleEndian 4 (Crc32.remainder (Container.magic ++ body)).toNat

theorem Digits.ne_nil {bytes : Bytes} {n : Nat} (digits : Digits bytes n) : bytes ≠ [] := by
  cases digits <;> exact List.cons_ne_nil _ _

theorem digits_continued_iff {digit : UInt8} {digits : Bytes} {n : Nat}
    (continued : 128 ≤ digit.toNat) : Digits (digit :: digits) n ↔
      ∃ m, Digits digits m ∧ n = digit.toNat - 128 + 128 * m := by
  constructor
  · intro spelled
    cases spelled with
    | last small => exact absurd small (Nat.not_lt.mpr continued)
    | next _ others => exact ⟨_, others, rfl⟩
  · rintro ⟨m, others, rfl⟩
    exact .next continued others

theorem digits_last_iff {digit : UInt8} {digits : Bytes} {n : Nat} (small : digit.toNat < 128) :
    Digits (digit :: digits) n ↔ digits = [] ∧ n = digit.toNat := by
  constructor
  · intro spelled
    cases spelled with
    | last _ => exact ⟨rfl, rfl⟩
    | next continued _ => exact absurd small (Nat.not_lt.mpr continued)
  · rintro ⟨rfl, rfl⟩
    exact .last small

theorem Index.ne_nil {bytes : Bytes} {x : Number} (index : Index bytes x) : bytes ≠ [] := by
  rcases index with ⟨n, numeral, -⟩
  exact numeral.1.ne_nil

theorem Step.ne_nil {bytes : Bytes} {step : ExprWire.Step} (spelled : Step bytes step) :
    bytes ≠ [] := by
  rcases spelled with ⟨tag, fields, rfl, -⟩
  exact List.cons_ne_nil _ _

theorem Items.length_le {spells : Bytes → α → Prop}
    (taken : ∀ {bytes item}, spells bytes item → bytes ≠ []) {bytes : Bytes} {items : List α}
    (spelled : Items spells bytes items) : items.length ≤ bytes.length := by
  induction spelled with
  | nil => exact Nat.le_refl _
  | cons first rest ih =>
      have := List.length_pos_iff.mpr (taken first)
      rw [List.length_append, List.length_cons]
      omega

end Grammar

namespace Reader

variable {α β : Type} {reader : Reader α} {k : α → Reader β} {spells : Bytes → α → Prop}
  {spells' : α → Bytes → β → Prop} {cause : Cause}

/-- That a reader fails with nothing but blame for what it was given. -/
def Blames (reader : Reader α) : Prop :=
  ∀ ⦃cursor after : Cursor⦄ ⦃problem : Problem⦄, reader.run cursor = (.error problem, after) →
    ∃ fault, problem = .fault fault ∧ fault.cause.OfInput

theorem Blames.failsFor (blames : Blames reader) (cursor : Cursor) :
    FailsFor Cause.OfInput (reader.run cursor).1 :=
  fun _ failed => blames (Prod.ext failed rfl)

theorem Blames.bind (blames : Blames reader) (blames' : ∀ a, Blames (k a)) :
    Blames (reader >>= k) := by
  intro cursor after problem run
  rcases run_bind_cases run with ⟨a, middle, -, run'⟩ | ⟨problem', run, failed⟩
  · exact blames' a run'
  · cases failed
    exact blames run

theorem blames_pure (a : α) : Blames (pure a) := fun _ _ _ run => absurd run nofun

theorem Blames.map {f : α → β} (blames : Blames reader) : Blames (do return f (← reader)) :=
  blames.bind fun a => blames_pure (f a)

theorem blames_lift {outcome : Outcome α} (fails : FailsFor Cause.OfInput outcome) :
    Blames (liftM outcome) := by
  intro cursor after problem run
  exact fails problem (Prod.mk.inj run).1

theorem blames_raise (blamed : cause.OfInput) : Blames (raise cause : Reader α) :=
  blames_lift (failsFor_raise blamed)

theorem blames_expectEnd : Blames expectEnd := by
  intro cursor after problem run
  cases cursor with
  | mk offset rest =>
      cases rest with
      | nil => cases run
      | cons first rest =>
          cases run
          exact ⟨⟨.trailingData offset, []⟩, rfl, rfl⟩

theorem Blames.guarded (count : Nat) (blames : Blames reader)
    (blamed : cause.OfInput) :
    Blames (do
      if (← remaining) < count then raise cause
      reader) := by
  intro cursor after problem run
  rw [run_guard] at run
  split at run
  · cases run
    exact ⟨⟨cause, []⟩, rfl, blamed⟩
  · exact blames run

/-- That a reader accepts exactly what is spelled, takes no byte more, and blames all else. -/
structure Exact (reader : Reader α) (spells : Bytes → α → Prop) : Prop where
  reads {bytes : Bytes} {a : α} (spelled : spells bytes a) : Reads reader bytes a
  spelled {cursor after : Cursor} {a : α} (run : reader.run cursor = (.ok a, after)) :
    ∃ bytes, cursor.rest = bytes ++ after.rest ∧ spells bytes a
  blames : Blames reader

/-- That a reader accepts a byte string exactly if it is spelled as a whole, and blames all
others. -/
structure Whole (reader : Reader α) (spells : Bytes → α → Prop) : Prop where
  finishes {bytes : Bytes} {a : α} (spelled : spells bytes a) : Finishes reader bytes a
  spelled {cursor after : Cursor} {a : α} (run : reader.run cursor = (.ok a, after)) :
    spells cursor.rest a
  blames : Blames reader

theorem Exact.run_eq_ok_iff (exact : Exact reader spells) {bytes rest : Bytes} {a : α}
    {offset count : Nat} : reader.run ⟨offset, bytes⟩ = (.ok a, ⟨offset + count, rest⟩) ↔
      ∃ taken, bytes = taken ++ rest ∧ taken.length = count ∧ spells taken a := by
  constructor
  · intro run
    rcases exact.spelled run with ⟨taken, rfl, spelled⟩
    have same := (exact.reads spelled offset rest).symm.trans run
    exact ⟨taken, rfl, Nat.add_left_cancel (Cursor.mk.inj (Prod.mk.inj same).2).1, spelled⟩
  · rintro ⟨taken, rfl, rfl, spelled⟩
    exact exact.reads spelled offset rest

theorem Exact.refuses (exact : Exact reader spells) {bytes : Bytes} (offset : Nat)
    (unspelled : ¬∃ taken rest a, bytes = taken ++ rest ∧ spells taken a) :
    ∃ fault after, reader.run ⟨offset, bytes⟩ = (.error (.fault fault), after) ∧
      fault.status = .invalidArgument := by
  cases run : reader.run ⟨offset, bytes⟩ with
  | mk result after =>
      cases result with
      | ok a =>
          rcases exact.spelled run with ⟨taken, same, spelled⟩
          exact absurd ⟨taken, after.rest, a, same, spelled⟩ unspelled
      | error problem =>
          rcases exact.blames run with ⟨fault, rfl, blamed⟩
          exact ⟨fault, after, rfl, blamed.status_eq⟩

def Then (spells : Bytes → α → Prop) (spells' : α → Bytes → β → Prop) (bytes : Bytes) (b : β) :
    Prop :=
  ∃ a first rest, bytes = first ++ rest ∧ spells first a ∧ spells' a rest b

theorem Exact.bind (exact : Exact reader spells) (exact' : ∀ a, Exact (k a) (spells' a)) :
    Exact (reader >>= k) (Then spells spells') where
  reads := by
    rintro bytes b ⟨a, first, rest, rfl, spelled, spelled'⟩
    exact (exact.reads spelled).bind ((exact' a).reads spelled')
  spelled run := by
    rcases run_bind_cases run with ⟨a, middle, run, run'⟩ | ⟨problem, -, failed⟩
    · rcases exact.spelled run with ⟨first, taken, spelled⟩
      rcases (exact' a).spelled run' with ⟨rest, taken', spelled'⟩
      rw [taken', ← List.append_assoc] at taken
      exact ⟨first ++ rest, taken, a, first, rest, rfl, spelled, spelled'⟩
    · cases failed
  blames := exact.blames.bind fun a => (exact' a).blames

theorem Exact.whole (exact : Exact reader spells) (whole : ∀ a, Whole (k a) (spells' a)) :
    Whole (reader >>= k) (Then spells spells') where
  finishes := by
    rintro bytes b ⟨a, first, rest, rfl, spelled, spelled'⟩
    exact (exact.reads spelled).finish ((whole a).finishes spelled')
  spelled run := by
    rcases run_bind_cases run with ⟨a, middle, run, run'⟩ | ⟨problem, -, failed⟩
    · rcases exact.spelled run with ⟨first, taken, spelled⟩
      exact ⟨a, first, middle.rest, taken, spelled, (whole a).spelled run'⟩
    · cases failed
  blames := exact.blames.bind fun a => (whole a).blames

theorem Exact.congr {others : Bytes → α → Prop} (exact : Exact reader spells)
    (same : ∀ bytes a, spells bytes a ↔ others bytes a) : Exact reader others := by
  have equal : spells = others := funext fun bytes => funext fun a => propext (same bytes a)
  exact equal ▸ exact

theorem Whole.congr {others : Bytes → α → Prop} (whole : Whole reader spells)
    (same : ∀ bytes a, spells bytes a ↔ others bytes a) : Whole reader others := by
  have equal : spells = others := funext fun bytes => funext fun a => propext (same bytes a)
  exact equal ▸ whole

theorem Exact.pure (a : α) : Exact (Pure.pure a) fun bytes b => bytes = [] ∧ b = a where
  reads := by
    rintro bytes b ⟨rfl, rfl⟩
    exact Reads.pure b
  spelled run := by
    cases run
    exact ⟨[], rfl, rfl, rfl⟩
  blames := blames_pure a

theorem Exact.map {f : α → β} (exact : Exact reader spells) :
    Exact (do return f (← reader)) fun bytes b => ∃ a, spells bytes a ∧ b = f a := by
  refine (exact.bind fun a => Exact.pure (f a)).congr fun bytes b => ⟨?_, ?_⟩
  · rintro ⟨a, first, rest, rfl, spelled, rfl, rfl⟩
    rw [List.append_nil]
    exact ⟨a, spelled, rfl⟩
  · rintro ⟨a, spelled, rfl⟩
    exact ⟨a, bytes, [], (List.append_nil _).symm, spelled, rfl, rfl⟩

theorem Exact.fail (cause : Cause) (blamed : cause.OfInput) :
    Exact (raise cause : Reader α) fun _ _ => False where
  reads spelled := spelled.elim
  spelled run := absurd run nofun
  blames := blames_raise blamed

theorem Exact.located {k : Cursor → Reader α} (exact : ∀ cursor, Exact (k cursor) spells) :
    Exact (do k (← get)) spells where
  reads spelled offset rest := (exact _).reads spelled offset rest
  spelled {cursor _ _} run := (exact cursor).spelled run
  blames cursor _ _ run := (exact cursor).blames run

theorem Exact.noting (exact : Exact reader spells) (note : Note) :
    Exact (Reader.noting note reader) spells where
  reads spelled := (exact.reads spelled).noting note
  spelled {cursor after a} run := by
    change (annotate note (reader.run cursor).1, (reader.run cursor).2) = _ at run
    cases first : reader.run cursor with
    | mk result middle =>
        rw [first] at run
        cases result with
        | ok b =>
            cases run
            exact exact.spelled first
        | error problem => cases run
  blames cursor after problem run :=
    (exact.blames.failsFor cursor).annotate note problem (congrArg Prod.fst run)

theorem exact_byte : Exact byte fun bytes digit => bytes = [digit] where
  reads := by
    rintro bytes digit rfl
    exact reads_byte digit
  spelled {cursor after digit} run := by
    cases cursor with
    | mk offset rest =>
        cases rest with
        | nil => cases run
        | cons first rest =>
            cases run
            exact ⟨[digit], rfl, rfl⟩
  blames cursor after problem run := by
    cases cursor with
    | mk offset rest =>
        cases rest with
        | nil =>
            cases run
            exact ⟨⟨.endOfData offset, []⟩, rfl, rfl⟩
        | cons first rest => cases run

theorem run_bytes (count offset : Nat) (rest : Bytes) : (bytes count).run ⟨offset, rest⟩ =
    if count ≤ rest.length then (.ok (rest.take count), ⟨offset + count, rest.drop count⟩)
    else (.error (.of (.endOfData offset)), ⟨offset, rest⟩) := by
  change (if count ≤ rest.length then
      (do
        set (Cursor.mk (offset + count) (rest.drop count))
        return rest.take count : Reader Bytes)
    else raise (.endOfData offset)).run ⟨offset, rest⟩ = _
  split <;> rfl

theorem exact_bytes (count : Nat) :
    Exact (bytes count) fun bytes content => bytes = content ∧ content.length = count where
  reads := by
    rintro bytes content ⟨rfl, rfl⟩
    exact reads_bytes bytes
  spelled {cursor after content} run := by
    rw [run_bytes] at run
    split at run
    · rename_i enough
      cases run
      exact ⟨_, (List.take_append_drop _ _).symm, rfl, List.length_take_of_le enough⟩
    · cases run
  blames cursor after problem run := by
    rw [run_bytes] at run
    split at run
    · cases run
    · cases run
      exact ⟨_, rfl, rfl⟩

theorem Exact.guarded (count : Nat) (cause : Cause) (exact : Exact reader spells)
    (enough : ∀ {bytes a}, spells bytes a → count ≤ bytes.length)
    (blamed : cause.OfInput) :
    Exact (do
      if (← remaining) < count then raise cause
      reader) spells where
  reads spelled := (exact.reads spelled).guarded (enough spelled)
  spelled run := by
    rw [run_guard] at run
    split at run
    · cases run
    · exact exact.spelled run
  blames := exact.blames.guarded count blamed

theorem Whole.guarded (count : Nat) (cause : Cause) (whole : Whole reader spells)
    (enough : ∀ {bytes a}, spells bytes a → count ≤ bytes.length)
    (blamed : cause.OfInput) :
    Whole (do
      if (← remaining) < count then raise cause
      reader) spells where
  finishes spelled := (whole.finishes spelled).guarded (enough spelled)
  spelled run := by
    rw [run_guard] at run
    split at run
    · cases run
    · exact whole.spelled run
  blames := whole.blames.guarded count blamed

theorem Whole.parse_eq_ok_iff (whole : Whole reader spells) {bytes : Bytes} {a : α} :
    reader.parse bytes = .ok a ↔ spells bytes a :=
  ⟨fun read => whole.spelled (Prod.ext read rfl), fun spelled => (whole.finishes spelled).parse⟩

theorem Whole.failsFor_parse (whole : Whole reader spells) (bytes : Bytes) :
    FailsFor Cause.OfInput (reader.parse bytes) :=
  whole.blames.failsFor (.start bytes)

theorem whole_end (a : α) : Whole (do
    expectEnd
    return a) fun bytes b => bytes = [] ∧ b = a where
  finishes := by
    rintro bytes b ⟨rfl, rfl⟩
    exact finishes_end (finishes_pure b)
  spelled {cursor after b} run := by
    cases cursor with
    | mk offset rest =>
        cases rest with
        | nil =>
            cases run
            exact ⟨rfl, rfl⟩
        | cons first rest => cases run
  blames := blames_expectEnd.bind fun _ => blames_pure a

theorem exact_overlong : Exact (do raise (.overlongVarint (← get).offset) : Reader α)
    fun _ _ => False :=
  Exact.located fun cursor => Exact.fail (.overlongVarint cursor.offset) rfl

theorem exact_varintFrom (digits place total : Nat) :
    Exact (varintFrom digits place total) fun bytes m =>
      ∃ n, Grammar.Digits bytes n ∧ bytes.length ≤ digits ∧ m = total + n * place ∧
        m ≤ Varint.limit := by
  induction digits generalizing place total with
  | zero =>
      refine exact_overlong.congr fun bytes m => ⟨False.elim, ?_⟩
      rintro ⟨n, spelled, none, -⟩
      exact spelled.ne_nil (List.length_eq_zero_iff.mp (Nat.le_zero.mp none))
  | succ digits ih =>
      have behind (digit : UInt8) : Exact
          (if 128 ≤ digit.toNat then
            varintFrom digits (place * 128) (total + digit.toNat % 128 * place)
          else if total + digit.toNat % 128 * place ≤ Varint.limit then
            return total + digit.toNat % 128 * place
          else do raise (.overlongVarint (← get).offset) : Reader Nat)
          fun bytes m => ∃ n, Grammar.Digits (digit :: bytes) n ∧ bytes.length ≤ digits ∧
            m = total + n * place ∧ m ≤ Varint.limit := by
        have small : digit.toNat < 256 := digit.toNat_lt
        by_cases continued : 128 ≤ digit.toNat
        · have low : digit.toNat % 128 = digit.toNat - 128 := by omega
          have sum (n : Nat) : total + (digit.toNat - 128) * place + n * (place * 128) =
              total + (digit.toNat - 128 + 128 * n) * place := by
            rw [Nat.add_mul, Nat.add_assoc, Nat.mul_comm place, ← Nat.mul_assoc, Nat.mul_comm n]
          rw [if_pos continued, low]
          refine (ih _ _).congr fun bytes m => ?_
          simp only [Grammar.digits_continued_iff continued, sum]
          constructor
          · rintro ⟨n, others, rest⟩
            exact ⟨_, ⟨n, others, rfl⟩, rest⟩
          · rintro ⟨_, ⟨n, others, rfl⟩, rest⟩
            exact ⟨n, others, rest⟩
        · have last : digit.toNat < 128 := Nat.not_le.mp continued
          rw [if_neg continued, Nat.mod_eq_of_lt last]
          by_cases enough : total + digit.toNat * place ≤ Varint.limit
          · rw [if_pos enough]
            refine (Exact.pure _).congr fun bytes m => ?_
            simp only [Grammar.digits_last_iff last]
            constructor
            · rintro ⟨rfl, rfl⟩
              exact ⟨_, ⟨rfl, rfl⟩, Nat.zero_le _, rfl, enough⟩
            · rintro ⟨_, ⟨rfl, rfl⟩, -, rfl, -⟩
              exact ⟨rfl, rfl⟩
          · rw [if_neg enough]
            refine exact_overlong.congr fun bytes m => ⟨False.elim, ?_⟩
            simp only [Grammar.digits_last_iff last]
            rintro ⟨_, ⟨rfl, rfl⟩, -, rfl, fits⟩
            exact enough fits
      refine (exact_byte.bind behind).congr fun bytes m => ⟨?_, ?_⟩
      · rintro ⟨digit, _, rest, rfl, rfl, n, spelled, short, sum⟩
        exact ⟨n, spelled, Nat.succ_le_succ short, sum⟩
      · rintro ⟨n, spelled, short, sum⟩
        cases bytes with
        | nil => exact absurd rfl spelled.ne_nil
        | cons digit rest =>
            exact ⟨digit, [digit], rest, rfl, rfl, n, spelled, Nat.le_of_succ_le_succ short, sum⟩

theorem exact_varint : Exact varint Grammar.Numeral := by
  refine (exact_varintFrom 5 1 0).congr fun bytes m => ?_
  simp only [Nat.zero_add, Nat.mul_one]
  constructor
  · rintro ⟨n, spelled, short, rfl, small⟩
    exact ⟨spelled, short, small⟩
  · rintro ⟨spelled, short, small⟩
    exact ⟨m, spelled, short, rfl, small⟩

theorem exact_index (f : Number → β) : Exact (do return f (← varint))
    fun bytes b => ∃ x, Grammar.Index bytes x ∧ b = f x := by
  refine exact_varint.map.congr fun bytes b => ⟨?_, ?_⟩
  · rintro ⟨n, numeral, rfl⟩
    exact ⟨.ofNat n, ⟨n, numeral, rfl⟩, rfl⟩
  · rintro ⟨_, ⟨n, numeral, rfl⟩, rfl⟩
    exact ⟨n, numeral, rfl⟩

theorem exact_blob : Exact blob Grammar.Blob := by
  refine (exact_varint.bind exact_bytes).congr fun bytes content => ⟨?_, ?_⟩
  · rintro ⟨n, size, _, rfl, numeral, rfl, rfl⟩
    exact ⟨size, rfl, numeral⟩
  · rintro ⟨size, rfl, numeral⟩
    exact ⟨content.length, size, content, rfl, numeral, rfl, rfl⟩

theorem exact_decoded (start : Nat) (content : Bytes) : Exact
    (match Text.ofUtf8? content with
      | some text => return text
      | none => raise (.notUtf8 start) : Reader String)
    fun bytes text => bytes = [] ∧ Text.ofUtf8? content = some text := by
  cases Text.ofUtf8? content with
  | none =>
      refine (Exact.fail (.notUtf8 start) rfl).congr fun bytes text => ⟨False.elim, ?_⟩
      rintro ⟨-, same⟩
      cases same
  | some text =>
      refine (Exact.pure text).congr fun bytes other => and_congr_right fun _ => ?_
      rw [Option.some.injEq, eq_comm]

theorem exact_text : Exact text Grammar.Text := by
  refine (Exact.located fun cursor => exact_blob.bind (exact_decoded cursor.offset)).congr
    fun bytes text => ?_
  simp only [Text.ofUtf8?_eq_some_iff, Text.dropMark_eq_iff]
  constructor
  · rintro ⟨content, first, _, rfl, blob, rfl, raw, rfl, read⟩
    rw [List.append_nil]
    exact ⟨raw, blob, read⟩
  · rintro ⟨raw, blob, read⟩
    exact ⟨_, bytes, [], (List.append_nil _).symm, blob, rfl, raw, rfl, read⟩

theorem Exact.cons {count : Nat} {item : Bytes → β → Prop} {f : α → β} {others : Reader (List β)}
    (exact : Exact reader spells)
    (rest : Exact others fun bytes items => items.length = count ∧ Grammar.Items item bytes items)
    (made : ∀ bytes b, item bytes b ↔ ∃ a, spells bytes a ∧ b = f a) :
    Exact (do
      let a ← reader
      let items ← others
      return f a :: items) fun bytes items =>
        items.length = count + 1 ∧ Grammar.Items item bytes items := by
  refine (exact.bind fun a => rest.map).congr fun bytes items => ⟨?_, ?_⟩
  · rintro ⟨a, first, behind, rfl, spelled, items, ⟨size, listed⟩, rfl⟩
    exact ⟨congrArg (· + 1) size, .cons ((made _ _).mpr ⟨a, spelled, rfl⟩) listed⟩
  · rintro ⟨size, listed⟩
    cases listed with
    | nil => cases size
    | cons first listed =>
        rcases (made _ _).mp first with ⟨a, spelled, rfl⟩
        exact ⟨a, _, _, rfl, spelled, _, ⟨Nat.succ.inj size, listed⟩, rfl⟩

theorem exact_none {item : Bytes → α → Prop} : Exact (return [] : Reader (List α))
    fun bytes items => items.length = 0 ∧ Grammar.Items item bytes items := by
  refine (Exact.pure []).congr fun bytes items => ⟨?_, ?_⟩
  · rintro ⟨rfl, rfl⟩
    exact ⟨rfl, .nil⟩
  · rintro ⟨none, listed⟩
    cases listed with
    | nil => exact ⟨rfl, rfl⟩
    | cons first listed => cases none

theorem exact_varintList (count : Nat) : Exact (varintList count) fun bytes xs =>
    xs.length = count ∧ Grammar.Items Grammar.Index bytes xs := by
  induction count with
  | zero => exact exact_none
  | succ count ih => exact exact_varint.cons ih fun bytes x => Iff.rfl

theorem exact_varints : Exact varints Grammar.Indices := by
  have items (count : Nat) := (exact_varintList count).guarded count (.excessiveIndices count)
    (fun ⟨size, listed⟩ => size ▸ listed.length_le Grammar.Index.ne_nil) rfl
  refine (exact_varint.bind items).congr fun bytes xs => ⟨?_, ?_⟩
  · rintro ⟨_, count, items, rfl, numeral, rfl, listed⟩
    exact ⟨count, items, rfl, numeral, listed⟩
  · rintro ⟨count, items, rfl, numeral, listed⟩
    exact ⟨xs.length, count, items, rfl, numeral, rfl, listed⟩

theorem exact_flagged (flag : UInt8) : Exact
    (match flag.toNat with
      | 0 => return none
      | 1 => return some (← varint)
      | flag => raise (.wrongCodecFlag flag) : Reader (Option Number))
    fun bytes slot => Grammar.Slot (flag :: bytes) slot := by
  split
  · rename_i clear
    rw [show flag = 0 from UInt8.toNat_inj.mp clear]
    refine (Exact.pure none).congr fun bytes slot => ?_
    cases slot <;> simp [Grammar.Slot]
  · rename_i set
    rw [show flag = 1 from UInt8.toNat_inj.mp set]
    refine exact_varint.map.congr fun bytes slot => ?_
    cases slot <;> simp [Grammar.Slot, Grammar.Index]
  · rename_i unclear unset
    refine (Exact.fail (.wrongCodecFlag flag.toNat) rfl).congr
      fun bytes slot => ⟨False.elim, fun spelled => ?_⟩
    cases slot with
    | none => exact unclear (by rw [(List.cons.inj spelled).1]; rfl)
    | some index =>
        rcases spelled with ⟨rest, same, -⟩
        exact unset (by rw [(List.cons.inj same).1]; rfl)

theorem exact_codecSlot : Exact codecSlot Grammar.Slot := by
  refine (exact_byte.bind exact_flagged).congr fun bytes slot => ⟨?_, ?_⟩
  · rintro ⟨flag, _, rest, rfl, rfl, spelled⟩
    exact spelled
  · intro spelled
    cases slot with
    | none =>
        rw [spelled]
        exact ⟨0, [0], [], rfl, rfl, rfl⟩
    | some index =>
        rcases spelled with ⟨rest, rfl, numeral⟩
        exact ⟨1, [1], rest, rfl, rfl, rest, rfl, numeral⟩

theorem exact_fields (tag : Nat) : Exact (do
      match tag with
      | 1 => return .codec (← Reader.text)
      | 2 =>
          let payload ← Reader.blob
          let slot ← Reader.codecSlot
          let values ← Reader.varints
          let exprs ← Reader.varints
          return .value payload slot values exprs
      | 3 => return .literal (← Reader.varint)
      | 4 => return .leaf (← Reader.text)
      | 5 => return .placeholder (← Reader.text)
      | 6 =>
          let operator ← Reader.varint
          let deps ← Reader.varints
          return .apply operator deps
      | 7 => return .outputValue (← Reader.varint)
      | 8 => return .outputExpr (← Reader.varint)
      | tag => raise (.unknownStepTag tag) : Reader Step)
    fun bytes step => Grammar.Fields tag bytes step := by
  split
  · exact exact_text.map
  · refine (exact_blob.bind fun payload => exact_codecSlot.bind fun slot =>
      exact_varints.bind fun values => exact_varints.map).congr fun bytes step => ⟨?_, ?_⟩
    · rintro ⟨payload, a, _, rfl, first, slot, b, _, rfl, second, values, c, d, rfl, third,
        exprs, fourth, rfl⟩
      exact ⟨payload, slot, values, exprs, a, b, c, d, rfl, first, second, third, fourth, rfl⟩
    · rintro ⟨payload, slot, values, exprs, a, b, c, d, rfl, first, second, third, fourth, rfl⟩
      exact ⟨payload, a, _, rfl, first, slot, b, _, rfl, second, values, c, d, rfl, third,
        exprs, fourth, rfl⟩
  · exact exact_index _
  · exact exact_text.map
  · exact exact_text.map
  · refine (exact_varint.bind fun operator => exact_varints.map).congr fun bytes step => ⟨?_, ?_⟩
    · rintro ⟨n, a, b, rfl, first, deps, second, rfl⟩
      exact ⟨.ofNat n, deps, a, b, rfl, ⟨n, first, rfl⟩, second, rfl⟩
    · rintro ⟨_, deps, a, b, rfl, ⟨n, first, rfl⟩, second, rfl⟩
      exact ⟨n, a, b, rfl, first, deps, second, rfl⟩
  · exact exact_index _
  · exact exact_index _
  · rename_i unknown
    refine (Exact.fail (.unknownStepTag tag) rfl).congr
      fun bytes step => ⟨False.elim, fun spelled => ?_⟩
    unfold Grammar.Fields at spelled
    split at spelled <;> contradiction

theorem exact_step : Exact Step.read Grammar.Step := by
  refine (exact_byte.bind fun tag => exact_fields tag.toNat).congr fun bytes step => ⟨?_, ?_⟩
  · rintro ⟨tag, _, rest, rfl, rfl, spelled⟩
    exact ⟨tag, rest, rfl, spelled⟩
  · rintro ⟨tag, rest, rfl, spelled⟩
    exact ⟨tag, [tag], rest, rfl, rfl, spelled⟩

theorem exact_steps (count position : Nat) : Exact (Step.readAll count position)
    fun bytes steps => steps.length = count ∧ Grammar.Items Grammar.Step bytes steps := by
  induction count generalizing position with
  | zero => exact exact_none
  | succ count ih =>
      refine (exact_step.noting _).cons (f := id) (ih _) fun bytes step => ?_
      simp only [id, exists_eq_right']

theorem whole_body : Whole Container.readBody Grammar.Body := by
  have outputs (n : Nat) (steps : List Step) := (exact_varints.noting .readingOutputValues).whole
    fun values => (exact_varints.noting .readingOutputExprs).whole fun exprs =>
      whole_end (⟨some (.ofNat n), steps, values, exprs⟩ : Container)
  have counted (n count : Nat) := ((exact_steps count 0).whole (outputs n)).guarded count
    (.excessiveSteps count) (by
      rintro bytes container ⟨steps, first, rest, rfl, ⟨size, listed⟩, -⟩
      have := listed.length_le Grammar.Step.ne_nil
      rw [List.length_append]
      omega) rfl
  refine (exact_varint.whole fun n => exact_varint.whole (counted n)).congr
    fun bytes container => ⟨?_, ?_⟩
  · rintro ⟨n, a, _, rfl, version, _, b, _, rfl, count, steps, c, _, rfl, ⟨rfl, listed⟩, values,
      d, _, rfl, outputs, exprs, e, _, rfl, outputs', rfl, rfl⟩
    rw [List.append_nil]
    exact ⟨.ofNat n, a, b, c, d, e, rfl, ⟨n, version, rfl⟩, rfl, count, listed, outputs, outputs'⟩
  · obtain ⟨version, steps, values, exprs⟩ := container
    rintro ⟨_, a, b, c, d, e, rfl, ⟨n, numeral, rfl⟩, rfl, count, listed, outputs, outputs'⟩
    exact ⟨n, a, _, rfl, numeral, steps.length, b, _, rfl, count, steps, c, _, rfl, ⟨rfl, listed⟩,
      values, d, e, rfl, outputs, exprs, e, [], (List.append_nil e).symm, outputs', rfl, rfl⟩

end Reader

namespace Container

theorem trailer_eq (bytes : Bytes) :
    trailer bytes = Bytes.littleEndian 4 (Crc32.remainder bytes).toNat := by
  rw [trailer, Crc32.checksum_eq]

theorem spelled_iff {bytes : Bytes} {container : Container} :
    Grammar.Container bytes container ↔
      ∃ body, Grammar.Body body container ∧ bytes = sealed body := by
  simp only [Grammar.Container, sealed, trailer_eq]

theorem read_eq_ok_iff {bytes : Bytes} {container : Container} :
    Container.read bytes = .ok container ↔ Grammar.Container bytes container := by
  rw [spelled_iff]
  constructor
  · intro read
    by_cases closed : ∃ body, bytes = sealed body
    · rcases closed with ⟨body, rfl⟩
      rw [read_sealed, Reader.whole_body.parse_eq_ok_iff] at read
      exact ⟨body, read, rfl⟩
    · rcases read_unsealed closed with ⟨fault, refused, -⟩
      exact absurd (refused.symm.trans read) nofun
  · rintro ⟨body, spelled, rfl⟩
    rw [read_sealed, Reader.whole_body.parse_eq_ok_iff]
    exact spelled

theorem failsFor_read (bytes : Bytes) : FailsFor Cause.OfInput (Container.read bytes) := by
  by_cases closed : ∃ body, bytes = sealed body
  · rcases closed with ⟨body, rfl⟩
    rw [read_sealed]
    exact Reader.whole_body.failsFor_parse body
  · rcases refuses_unsealed closed with ⟨cause, refused, blamed⟩
    rw [refused]
    exact failsFor_raise blamed

theorem read_blames {bytes : Bytes} {problem : Problem}
    (refused : Container.read bytes = .error problem) :
    ∃ fault, problem = .fault fault ∧ fault.status = .invalidArgument := by
  rcases failsFor_read bytes problem refused with ⟨fault, rfl, blamed⟩
  exact ⟨fault, rfl, blamed.status_eq⟩

/-- Reading accepts what the grammar spells and nothing else, and blames whatever it refuses: the
checks on counts refuse nothing that is spelled. No byte string spells two containers. -/
theorem read_exactly :
    (∀ bytes container, Container.read bytes = .ok container ↔ Grammar.Container bytes container) ∧
    (∀ bytes, (¬∃ container, Grammar.Container bytes container) →
      ∃ fault, Container.read bytes = .error (.fault fault) ∧ fault.status = .invalidArgument) ∧
    ∀ bytes container other, Grammar.Container bytes container → Grammar.Container bytes other →
      container = other := by
  refine ⟨fun bytes container => read_eq_ok_iff, fun bytes unspelled => ?_, ?_⟩
  · cases result : Container.read bytes with
    | ok container => exact absurd ⟨container, read_eq_ok_iff.mp result⟩ unspelled
    | error problem =>
        rcases read_blames result with ⟨fault, rfl, status⟩
        exact ⟨fault, rfl, status⟩
  · intro bytes container other spelled spelled'
    exact Except.ok.inj ((read_eq_ok_iff.mpr spelled).symm.trans (read_eq_ok_iff.mpr spelled'))

end Container

end ExprWire
