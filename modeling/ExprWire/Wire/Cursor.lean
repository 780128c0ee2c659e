import ExprWire.Fault
import ExprWire.Text.Utf8
import ExprWire.Wire.Varint
/-!
Reading bytes from front to back. A reader that fails leaves the cursor where the failure found it,
and reading may go on from there.
-/

namespace ExprWire

/-- The bytes not yet read, and how many have been. -/
structure Cursor where
  offset : Nat
  rest : Bytes
  deriving DecidableEq, Repr, Inhabited

def Cursor.start (bytes : Bytes) : Cursor := ⟨0, bytes⟩

abbrev Reader := ExceptT Problem (StateM Cursor)

namespace Reader

variable {α : Type}

def parse (reader : Reader α) (bytes : Bytes) : Outcome α := (reader.run (.start bytes)).1

def noting (note : Note) (reader : Reader α) : Reader α := fun cursor =>
  let (result, after) := reader.run cursor
  (annotate note result, after)

def remaining : Reader Nat := return (← get).rest.length

def atEnd : Reader Bool := return (← get).rest.isEmpty

def expectEnd : Reader Unit := do
  let cursor ← get
  if cursor.rest.isEmpty then return () else raise (.trailingData cursor.offset)

def bytes (count : Nat) : Reader Bytes := do
  let cursor ← get
  if count ≤ cursor.rest.length then
    set (Cursor.mk (cursor.offset + count) (cursor.rest.drop count))
    return cursor.rest.take count
  else raise (.endOfData cursor.offset)

def byte : Reader UInt8 := do
  let cursor ← get
  match cursor.rest with
  | [] => raise (.endOfData cursor.offset)
  | byte :: rest =>
      set (Cursor.mk (cursor.offset + 1) rest)
      return byte

def nat (width : Nat) : Reader Nat := return Bytes.ofLittleEndian (← bytes width)

def int32 : Reader Int32 := return Int32.ofNat (← nat 4)

def int64 : Reader Int64 := return Int64.ofNat (← nat 8)

def float32 : Reader Binary32 := return ⟨UInt32.ofNat (← nat 4)⟩

def float64 : Reader Binary64 := return ⟨UInt64.ofNat (← nat 8)⟩

/-- The digits of a numeral from one place on, of which at most `digits` may follow. -/
def varintFrom : (digits place total : Nat) → Reader Nat
  | 0, _, _ => do raise (.overlongVarint (← get).offset)
  | digits + 1, place, total => do
      let digit ← byte
      let total := total + digit.toNat % 128 * place
      if 128 ≤ digit.toNat then varintFrom digits (place * 128) total
      else if total ≤ Varint.limit then return total
      else raise (.overlongVarint (← get).offset)

/-- A numeral of at most five digits and 32 bits, which need not be the shortest. -/
def varint : Reader Nat := varintFrom 5 1 0

def blob : Reader Bytes := do bytes (← varint)

def text : Reader String := do
  let start := (← get).offset
  match Text.ofUtf8? (← blob) with
  | some text => return text
  | none => raise (.notUtf8 start)

/-- Whether the given text comes next. If not, nothing is read. -/
def tag (expected : String) : Reader Bool := fun cursor =>
  match text.run cursor with
  | (.ok found, after) => if found = expected then (.ok true, after) else (.ok false, cursor)
  | (.error _, _) => (.ok false, cursor)

def varintList : Nat → Reader (List Number)
  | 0 => return []
  | count + 1 => do
      let n ← varint
      let rest ← varintList count
      return (n : Number) :: rest

/-- Numerals behind their count, which may not exceed the number of bytes that follow. -/
def varints : Reader (List Number) := do
  let count ← varint
  if (← remaining) < count then raise (.excessiveIndices count)
  varintList count

end Reader

end ExprWire
