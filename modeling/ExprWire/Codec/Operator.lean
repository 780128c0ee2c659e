import ExprWire.Codec
import ExprWire.Operator.Registry
import ExprWire.Wire.Buffer
import ExprWire.Wire.Cursor
/-!
The codec of operators. A payload holds the codec's name and a byte for the kind: a reference with
its name, a backend operator with name, signature, doc and output type, or the tuple constructor.
References are looked up again when they are decoded.
-/

namespace ExprWire.OperatorCodec

def name : String := "dagwire.operator.v1"

/-- The name of a backend operator's output type; empty if there is none. Only types that a plain
name denotes can be stored. -/
def outputName (op : String) : Option ValueType → Outcome String
  | none => .ok ""
  | some type =>
      if (ValueType.ofName? type.name).isSome then .ok type.name
      else raise (.unsupportedOutput op type.name)

def writeOperator (buffer : Buffer) : Operator → Outcome Buffer
  | .registered name _ => (buffer.byte 1).text name
  | .backend name signature doc output => do
      let output ← outputName name output
      let buffer ← (buffer.byte 2).text name
      let buffer ← buffer.text signature.spec
      let buffer ← buffer.text doc
      buffer.text output
  | .makeTuple => return buffer.byte 3
  | .custom _ name _ _ _ _ => raise (.unsupportedOperator name)

def payload (op : Operator) : Outcome Bytes := do
  let buffer ← (Buffer.withCapacity 64).text name
  return (← writeOperator buffer op).bytes

def encode : ValueEncoder := fun value => do
  let op ← value.toOperator
  return ⟨some name, false, payload op⟩

def outputType (name : String) : Outcome (Option ValueType) :=
  if name = "" then .ok none
  else
    match ValueType.ofName? name with
    | some type => .ok (some type)
    | none => raise (.unknownTypeName name)

def readOperator (operators : OperatorRegistry) : Reader Operator := do
  match (← Reader.byte).toNat with
  | 1 =>
      let name ← Reader.text
      Reader.expectEnd
      operators.lookup name
  | 2 =>
      let name ← Reader.text
      let spec ← Reader.text
      let doc ← Reader.text
      let output ← Reader.text
      Reader.expectEnd
      let output ← outputType output
      let signature ← Signature.parse spec
      return .backend name signature doc output
  | 3 =>
      Reader.expectEnd
      return .makeTuple
  | kind => raise (.unknownOperatorKind kind)

def reader (operators : OperatorRegistry) (values : List Value) (exprs : List Expr) :
    Reader (Option Value) := do
  if ← Reader.tag name then
    if !values.isEmpty || !exprs.isEmpty then raise .operatorWithInputs
    return some (.operator (← readOperator operators))
  else return none

def decode (operators : OperatorRegistry) : ValueDecoder := fun payload values exprs =>
  (reader operators values exprs).parse payload

end ExprWire.OperatorCodec
