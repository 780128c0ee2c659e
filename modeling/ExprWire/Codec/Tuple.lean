import ExprWire.Codec
import ExprWire.Wire.Buffer
import ExprWire.Wire.Cursor
/-!
The codec of tuples. A payload holds the codec's name alone; the fields are values of their own, so
that shared fields are stored once.
-/

namespace ExprWire.TupleCodec

def name : String := "dagwire.tuple.v1"

def payload : Outcome Bytes := do
  return (← (Buffer.withCapacity 32).text name).bytes

def encode : ValueEncoder := fun value => do
  let _ ← value.toFields
  return ⟨some name, true, payload⟩

def reader (values : List Value) (exprs : List Expr) : Reader (Option Value) := do
  if ← Reader.tag name then
    Reader.expectEnd
    if !exprs.isEmpty then raise .tupleWithExprs
    return some (.tuple values)
  else return none

def decode : ValueDecoder := fun payload values exprs => (reader values exprs).parse payload

end ExprWire.TupleCodec
