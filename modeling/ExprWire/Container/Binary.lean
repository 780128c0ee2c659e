import ExprWire.Container
import ExprWire.Crc32
import ExprWire.Wire.Buffer
import ExprWire.Wire.Cursor
/-!
The binary form of containers: four magic bytes, the version, the counted steps, the counted output
positions, and a checksum of all of these. A step is a tag byte and its fields.
-/

namespace ExprWire

def Container.magic : Bytes := [0x44, 0x41, 0x47, 0x57]

/-- Appends the tag and the fields of a step; a malformed step leaves nothing. -/
def Step.write (buffer : Buffer) : Step → Outcome Buffer
  | .codec name => (buffer.byte 1).text name
  | .value payload slot values exprs => do
      let buffer ← (buffer.byte 2).blob payload
      let buffer ← match slot with
        | none => pure (buffer.byte 0)
        | some index => (buffer.byte 1).varint index
      let buffer ← buffer.varints values
      buffer.varints exprs
  | .literal index => (buffer.byte 3).varint index
  | .leaf key => (buffer.byte 4).text key
  | .placeholder key => (buffer.byte 5).text key
  | .apply operator deps => do
      let buffer ← (buffer.byte 6).varint operator
      buffer.varints deps
  | .outputValue index => (buffer.byte 7).varint index
  | .outputExpr index => (buffer.byte 8).varint index
  | .malformed _ => return buffer

def Step.writeAll (buffer : Buffer) : Nat → List Step → Outcome Buffer
  | _, [] => .ok buffer
  | position, step :: steps => do
      let buffer ← annotate (.writingStep position) (step.write buffer)
      writeAll buffer (position + 1) steps

namespace Container

def writeBody (buffer : Buffer) (container : Container) : Outcome Buffer := do
  match container.version with
  | none => raise .missingVersion
  | some version =>
      let buffer ← (buffer.append magic).varint version
      let buffer ← buffer.varint container.steps.length
      let buffer ← Step.writeAll buffer 0 container.steps
      let buffer ← buffer.varints container.outputValues
      buffer.varints container.outputExprs

def write (container : Container) : Outcome Bytes := do
  let body ← container.writeBody (.withCapacity 1024)
  return (body.int 4 (Crc32.checksum body.bytes).toNat).bytes

end Container

def Reader.codecSlot : Reader (Option Number) := do
  match (← byte).toNat with
  | 0 => return none
  | 1 => return some (← varint)
  | flag => raise (.wrongCodecFlag flag)

def Step.read : Reader Step := do
  match (← Reader.byte).toNat with
  | 1 => return .codec (← Reader.text)
  | 2 =>
      let payload ← Reader.blob
      let slot ← Reader.codecSlot
      let values ← Reader.varints
      let exprs ← Reader.varints
      return .value payload slot values exprs
  | 3 => return .literal (← Reader.varint)
  | 4 => return .leaf (← Reader.text)
  | 5 => return .placeholder (← Reader.text)
  | 6 =>
      let operator ← Reader.varint
      let deps ← Reader.varints
      return .apply operator deps
  | 7 => return .outputValue (← Reader.varint)
  | 8 => return .outputExpr (← Reader.varint)
  | tag => raise (.unknownStepTag tag)

def Step.readAll : (count position : Nat) → Reader (List Step)
  | 0, _ => return []
  | count + 1, position => do
      let step ← Reader.noting (.readingStep position) Step.read
      let steps ← readAll count (position + 1)
      return step :: steps

namespace Container

def readBody : Reader Container := do
  let version ← Reader.varint
  let count ← Reader.varint
  if (← Reader.remaining) < count then raise (.excessiveSteps count)
  let steps ← Step.readAll count 0
  let outputValues ← Reader.noting .readingOutputValues Reader.varints
  let outputExprs ← Reader.noting .readingOutputExprs Reader.varints
  Reader.expectEnd
  return ⟨some version, steps, outputValues, outputExprs⟩

/-- The container that a byte string spells; whether its version can be decoded is not checked. -/
def read (bytes : Bytes) : Outcome Container :=
  if bytes.take 4 ≠ magic then raise .badMagic
  else if bytes.length < 8 then raise .truncatedContainer
  else
    let body := bytes.take (bytes.length - 4)
    let trailer := bytes.drop (bytes.length - 4)
    if (Crc32.checksum body).toNat ≠ Bytes.ofLittleEndian trailer then
      raise .wrongChecksum
    else readBody.parse (body.drop 4)

end Container

end ExprWire
