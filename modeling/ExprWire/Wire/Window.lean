import ExprWire.Wire.Reading
import ExprWire.Word
/-!
Reading in place. A window is a part of memory. Single bytes and byte strings are read from its
cells directly, words by way of a view of the same part; every call first makes sure that there are
as many bytes ahead as it needs.
-/

namespace ExprWire

def Problem.blames : Problem → Bool
  | .fault inner => inner.cause.category = .invalidArgument
  | .foreign _ => false

/-- A part of memory. -/
structure Window where
  memory : Bytes
  start : Nat
  size : Nat
  inside : start + size ≤ memory.length

namespace Window

open Reader (Request Answer Turn)

/-- Reads at a position, which it moves. A failure leaves the position where it found it. -/
abbrev Scan := ExceptT Problem (StateM Nat)

variable (window : Window)

def bytes : Bytes := (window.memory.drop window.start).take window.size

def between (low high : Nat) : Bytes := (window.bytes.take high).drop low

/-- The cell at a position of the window. Outside there is none, whatever is in memory there. -/
def cell? (position : Nat) : Option UInt8 :=
  if position < window.size then window.memory[window.start + position]? else none

/-- The number that cells from a position on spell, little-endian. They have to be in the window. -/
def view (width position : Nat) : Outcome Nat :=
  if position + width ≤ window.size then
    .ok (Bytes.ofLittleEndian ((window.memory.drop (window.start + position)).take width))
  else .error (.foreign (.error "offset is out of bounds"))

def remaining (position : Nat) : Int := window.size - position

def require (count : Nat) : Scan Unit := do
  let position ← get
  if window.size < position + count then raise (.endOfData position)

def byte : Scan (Option UInt8) := do
  window.require 1
  let position ← get
  set (position + 1)
  return window.cell? position

def slice (count : Nat) : Scan Bytes := do
  window.require count
  let position ← get
  set (position + count)
  return window.between position (position + count)

def word (width : Nat) : Scan Nat := do
  window.require width
  let position ← get
  let n ← window.view width position
  set (position + width)
  return n

def varintFrom : (digits place total : Nat) → Scan Nat
  | 0, _, _ => do raise (.overlongVarint (← get))
  | digits + 1, place, total => do
      let digit : Nat := (← window.byte).elim 0 UInt8.toNat
      let total := total + (Word.and digit 127).toNat * place
      if Word.and digit 128 = 0 then
        if Varint.limit < total then raise (.overlongVarint (← get)) else return total
      else varintFrom digits (place * 128) total

def varint : Scan Nat := window.varintFrom 5 1 0

def blob : Scan Bytes := do window.slice (← window.varint)

def text : Scan String := do
  let start ← get
  match Text.ofUtf8? (← window.blob) with
  | some text => return text
  | none => raise (.notUtf8 start)

/-- Whether the given text comes next. If not, the position is set back, unless something else than
an invalid argument has stopped the attempt. -/
def tag (expected : String) : Scan Bool := fun start =>
  match window.text.run start with
  | (.ok found, after) => if found = expected then (.ok true, after) else (.ok false, start)
  | (.error problem, after) =>
      if problem.blames then (.ok false, start) else (.error problem, after)

def atEnd : Scan Bool := return window.size ≤ (← get)

def expectEnd : Scan Unit := do
  if !(← window.atEnd) then raise (.trailingData (← get))

def answerByte : Option UInt8 → Answer
  | some byte => .read (.byte (.ofNat byte.toNat))
  | none => .missing

def perform : Reading → Scan Answer
  | .byte => return answerByte (← window.byte)
  | .bytes count => return .read (.bytes (← window.slice count))
  | .varint => return .read (.varint (.ofNat (← window.varint)))
  | .blob => return .read (.blob (← window.blob))
  | .text => return .read (.text (← window.text))
  | .uint32 => return .read (.uint32 (.ofNat (← window.word 4)))
  | .int32 => return .read (.int32 (.whole (Int32.ofNat (← window.word 4)).toInt))
  | .int64 => return .read (.int64 (Int64.ofNat (← window.word 8)).toInt)
  | .float32 => return .read (.float32 (Binary32.mk (UInt32.ofNat (← window.word 4))).widen)
  | .float64 => return .read (.float64 ⟨UInt64.ofNat (← window.word 8)⟩)

def respond : Request → Scan Answer
  | .read reading => window.perform reading
  | .tag expected => return .truth (← window.tag expected)
  | .atEnd => return .truth (← window.atEnd)
  | .expectEnd => do
      window.expectEnd
      return .done

def serve (position : Nat) : List Request → List Turn
  | [] => []
  | request :: others =>
      let (outcome, after) := (window.respond request).run position
      ⟨request, position, outcome, after, window.remaining after⟩ :: serve after others

end Window

end ExprWire
