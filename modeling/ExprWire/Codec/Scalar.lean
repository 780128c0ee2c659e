import ExprWire.Codec
import ExprWire.Wire.Buffer
import ExprWire.Wire.Cursor
/-!
The codec of scalar values. A payload holds the codec's name, a byte for the type, and the value in
little-endian form; texts and byte strings stand behind their length.
-/

namespace ExprWire.ScalarCodec

def name : String := "dagwire.scalar.v1"

def code? : ValueType → Option UInt8
  | .float32 => some 1
  | .float64 => some 2
  | .int32 => some 3
  | .int64 => some 4
  | .boolean => some 5
  | .text => some 6
  | .bytes => some 7
  | .unit => some 8
  | _ => none

def writeContent (buffer : Buffer) : Value → Outcome Buffer
  | .float32 x => return buffer.float32 x
  | .float64 x => return buffer.float64 x
  | .int32 n => return buffer.int 4 n.toInt
  | .int64 n => return buffer.int 8 n.toInt
  | .boolean b => return buffer.byte (if b then 1 else 0)
  | .text content => buffer.text content
  | .bytes content => buffer.blob content
  | _ => return buffer

def payload (code : UInt8) (value : Value) : Outcome Bytes := do
  let buffer ← (Buffer.withCapacity 32).text name
  let buffer ← writeContent (buffer.byte code) value
  return buffer.bytes

def encode : ValueEncoder := fun value =>
  match code? value.type with
  | some code => .ok ⟨some name, false, payload code value⟩
  | none => raise (.unsupportedType name value.type.name)

def readBoolean : Reader Bool := do
  match (← Reader.byte).toNat with
  | 0 => return false
  | 1 => return true
  | byte => raise (.wrongBoolean byte)

def readValue : Reader Value := do
  match (← Reader.byte).toNat with
  | 1 => return .float32 (← Reader.float32)
  | 2 => return .float64 (← Reader.float64)
  | 3 => return .int32 (.word (← Reader.int32))
  | 4 => return .int64 (← Reader.int64)
  | 5 => return .boolean (← readBoolean)
  | 6 => return .text (← Reader.text)
  | 7 => return .bytes (← Reader.blob)
  | 8 => return .unit
  | code => raise (.unknownScalarCode code)

def reader (values : List Value) (exprs : List Expr) : Reader (Option Value) := do
  if ← Reader.tag name then
    if !values.isEmpty || !exprs.isEmpty then raise .scalarWithInputs
    let value ← readValue
    Reader.expectEnd
    return some value
  else return none

def decode : ValueDecoder := fun payload values exprs => (reader values exprs).parse payload

end ExprWire.ScalarCodec
