import ExprWire.Wire.Writing
import ExprWire.Word
/-!
Buffers as arrays that are written in place. Single bytes and byte strings go to an array directly,
words by way of a view of it. A buffer whose array has become too small moves to a new one, and has
to make a new view as well.
-/

namespace ExprWire

/-- All arrays so far, oldest first, which of them is written to and which is viewed, and where the
next byte goes. -/
structure Storage where
  arrays : List Bytes
  array : Nat
  view : Nat
  position : Nat
  deriving DecidableEq, Repr

namespace Storage

/-- Something done to storage. There is no answer if it never comes to an end. -/
abbrev Action := ExceptT Problem (StateT Storage Option)

def allocate (capacity : Nat) : Storage := ⟨[List.replicate capacity 0], 0, 0, 0⟩

def cells (storage : Storage) (array : Nat) : Bytes := storage.arrays[array]?.getD []

def capacity (storage : Storage) : Nat := (storage.cells storage.array).length

def written (storage : Storage) : Bytes := (storage.cells storage.array).take storage.position

/-- The cells with content in the place of what stood there from an offset on. -/
def overwrite (cells : Bytes) (offset : Nat) (content : Bytes) : Bytes :=
  cells.take offset ++ content ++ cells.drop (offset + content.length)

def reserve (extra : Nat) : Action Unit := fun storage =>
  let needed := storage.position + extra
  if needed ≤ storage.capacity then some (.ok (), storage)
  else if pos : 0 < storage.capacity then
    let capacity := Buffer.doubled storage.capacity needed pos
    let cells := overwrite (List.replicate capacity 0) 0 storage.written
    let array := storage.arrays.length
    some (.ok (), ⟨storage.arrays ++ [cells], array, array, storage.position⟩)
  -- a capacity of zero stays what it is, however often it is doubled
  else none

/-- Writes one byte. Behind the last cell it is lost. -/
def store (byte : UInt8) : Action Unit := modify fun storage =>
  { storage with
    arrays := storage.arrays.set storage.array
      ((storage.cells storage.array).set storage.position byte)
    position := storage.position + 1 }

def copy (chosen : Storage → Nat) (content : Bytes) : Action Unit := fun storage =>
  let cells := storage.cells (chosen storage)
  if storage.position + content.length ≤ cells.length then
    some (.ok (), { storage with
      arrays := storage.arrays.set (chosen storage) (overwrite cells storage.position content)
      position := storage.position + content.length })
  else some (.error (.foreign (.error "offset is out of bounds")), storage)

def storeDigits (n : Nat) : Action Unit := do
  if 127 < n then
    store (UInt8.ofInt (Word.or (Word.and n 127) 128))
    storeDigits (n / 128)
  else store (UInt8.ofNat n)
termination_by n

def byte (x : Number) : Action Unit := do
  reserve 1
  store (UInt8.ofInt x.truncated)

def bytes (content : Bytes) : Action Unit := do
  reserve content.length
  copy array content

def varint (x : Number) : Action Unit :=
  match Varint.value? x with
  | some n => do
      reserve 5
      storeDigits n
  | none => raise (.notVarint x)

def blob (content : Bytes) : Action Unit := do
  varint content.length
  bytes content

def word (content : Bytes) : Action Unit := do
  reserve content.length
  copy view content

def perform : Writing → Action Unit
  | .byte x => byte x
  | .bytes content => bytes content
  | .varint x => varint x
  | .blob content => blob content
  | .text content => blob (Text.utf8 content)
  | .uint32 x | .int32 x => word (Writing.word 4 x.truncated)
  | .int64 n => word (Writing.word 8 n)
  | .float32 x => word (Bytes.littleEndian 4 x.narrow.bits.toNat)
  | .float64 x => word (Bytes.littleEndian 8 x.bits.toNat)

def performAll (storage : Storage) : List Writing → Option (List (Outcome Unit) × Storage)
  | [] => some ([], storage)
  | writing :: others => do
      let (outcome, after) ← (perform writing).run storage
      let (outcomes, last) ← after.performAll others
      return (outcome :: outcomes, last)

end Storage

end ExprWire
