import ExprWire.Wire.Cursor
import ExprWire.Wire.Writing
/-!
Everything that can be read back from a buffer, one call after another. What a call has read is
given as the call that writes it. Besides calls there are questions about what comes next, and all
of them may go on after a failure.
-/

namespace ExprWire

inductive Reading where
  | byte
  | bytes (count : Nat)
  | varint
  | blob
  | text
  | uint32
  | int32
  | int64
  | float32
  | float64
  deriving DecidableEq

def Writing.reading : Writing → Reading
  | .byte _ => .byte
  | .bytes content => .bytes content.length
  | .varint _ => .varint
  | .blob _ => .blob
  | .text _ => .text
  | .uint32 _ => .uint32
  | .int32 _ => .int32
  | .int64 _ => .int64
  | .float32 _ => .float32
  | .float64 _ => .float64

namespace Reader

def perform : Reading → Reader Writing
  | .byte => return .byte (.ofNat (← byte).toNat)
  | .bytes count => return .bytes (← bytes count)
  | .varint => return .varint (.ofNat (← varint))
  | .blob => return .blob (← blob)
  | .text => return .text (← text)
  | .uint32 => return .uint32 (.ofNat (← nat 4))
  | .int32 => return .int32 (.whole (← int32).toInt)
  | .int64 => return .int64 (← int64).toInt
  | .float32 => return .float32 (← float32).widen
  | .float64 => return .float64 (← float64)

/-- What is read by all calls, up to the first that fails. -/
def performAll : List Reading → Reader (List Writing)
  | [] => return []
  | reading :: others => do
      let first ← perform reading
      let rest ← performAll others
      return first :: rest

/-- Anything asked of a reader: a call, or a question about what comes next. -/
inductive Request where
  | read (reading : Reading)
  | tag (expected : String)
  | atEnd
  | expectEnd
  deriving DecidableEq

inductive Answer where
  | read (content : Writing)
  -- a byte where there is none
  | missing
  | truth (holds : Bool)
  | done
  deriving DecidableEq

def respond : Request → Reader Answer
  | .read reading => return .read (← perform reading)
  | .tag expected => return .truth (← tag expected)
  | .atEnd => return .truth (← atEnd)
  | .expectEnd => do
      expectEnd
      return .done

/-- One request among others: where it began, what came of it, where it ended, and how many bytes
are ahead then. -/
structure Turn where
  request : Request
  before : Nat
  outcome : Outcome Answer
  after : Nat
  remaining : Int

/-- All requests, each from where the one before has ended, whether or not it failed. -/
def serve (cursor : Cursor) : List Request → List Turn
  | [] => []
  | request :: others =>
      let (outcome, after) := (respond request).run cursor
      ⟨request, cursor.offset, outcome, after.offset, after.rest.length⟩ :: serve after others

end Reader

end ExprWire
