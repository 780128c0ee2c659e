import ExprWire.Wire.Buffer
/-!
Everything that can be written to a buffer, one call after another. A call that fails leaves the
buffer as it was, and writing may go on.
-/

namespace ExprWire

/-- One call. Of a number that goes into a word the integer part is taken, and of that the lowest
bits. -/
inductive Writing where
  | byte (x : Number)
  | bytes (content : Bytes)
  | varint (x : Number)
  | blob (content : Bytes)
  | text (content : String)
  | uint32 (x : Number)
  | int32 (x : Number)
  | int64 (n : Int)
  | float32 (x : Binary64)
  | float64 (x : Binary64)
  deriving DecidableEq

/-- The lowest bytes of an integer, least significant first; a negative one counts down from the
power of 256 behind them. -/
def Writing.word (width : Nat) (n : Int) : Bytes :=
  Bytes.littleEndian width (n % (1 <<< (8 * width) : Nat)).toNat

namespace Buffer

def perform (buffer : Buffer) : Writing → Outcome Buffer
  | .byte x => .ok (buffer.int 1 x.truncated)
  | .bytes content => .ok (buffer.append content)
  | .varint x => buffer.varint x
  | .blob content => buffer.blob content
  | .text content => buffer.text content
  | .uint32 x | .int32 x => .ok (buffer.int 4 x.truncated)
  | .int64 n => .ok (buffer.int 8 n)
  | .float32 x => .ok (buffer.float32 x.narrow)
  | .float64 x => .ok (buffer.float64 x)

def performAll (buffer : Buffer) : List Writing → List (Outcome Unit) × Buffer
  | [] => ([], buffer)
  | writing :: others =>
      match buffer.perform writing with
      | .ok after => (after.performAll others).map (.ok () :: ·) id
      | .error problem => (buffer.performAll others).map (.error problem :: ·) id

end Buffer

end ExprWire
