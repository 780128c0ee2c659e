import ExprWire.Codec.Operator
import ExprWire.Codec.Scalar
import ExprWire.Codec.Tuple
/-!
Encoders by type and decoders by codec name. An encoder is found by the value's own type first, and
then by the key that a family of types shares.
-/

namespace ExprWire

structure CodecRegistry where
  byType : List (ValueType × ValueEncoder)
  byKey : List (String × ValueEncoder)
  decoders : List (String × ValueDecoder)
  frozen : Bool

namespace CodecRegistry

def empty : CodecRegistry := ⟨[], [], [], false⟩

instance : Inhabited CodecRegistry := ⟨empty⟩

def ensureMutable (registry : CodecRegistry) : Outcome Unit :=
  if registry.frozen then raise .codecsFrozen else .ok ()

def addByType (registry : CodecRegistry) (type : ValueType) (encoder : ValueEncoder) :
    Outcome CodecRegistry := do
  registry.ensureMutable
  if (registry.byType.lookup type).isSome then raise (.encoderExists type.name)
  return { registry with byType := registry.byType ++ [(type, encoder)] }

def addByKey (registry : CodecRegistry) (key : String) (encoder : ValueEncoder) :
    Outcome CodecRegistry := do
  registry.ensureMutable
  if key = "" then raise .emptyKey
  if (registry.byKey.lookup key).isSome then raise (.keyExists key)
  return { registry with byKey := registry.byKey ++ [(key, encoder)] }

def addDecoder (registry : CodecRegistry) (name : String) (decoder : ValueDecoder) :
    Outcome CodecRegistry := do
  registry.ensureMutable
  if name = "" then raise .emptyCodecName
  if (registry.decoders.lookup name).isSome then raise (.codecExists name)
  return { registry with decoders := registry.decoders ++ [(name, decoder)] }

def freeze (registry : CodecRegistry) : CodecRegistry := { registry with frozen := true }

def codecNames (registry : CodecRegistry) : List String :=
  Text.sortByUnits (registry.decoders.map Prod.fst)

def encoderFor? (registry : CodecRegistry) (type : ValueType) : Option ValueEncoder :=
  match registry.byType.lookup type with
  | some encoder => some encoder
  | none => if type.key = "" then none else registry.byKey.lookup type.key

def encoder (registry : CodecRegistry) : ValueEncoder := fun value =>
  match registry.encoderFor? value.type with
  | some encoder => encoder value
  | none => raise (.noEncoder value.type.name value.type.key value.render)

def lookup (registry : CodecRegistry) : CodecLookup := fun name =>
  match registry.decoders.lookup name with
  | some decoder => .ok decoder
  | none => raise (.unknownCodec name)

/-- The frozen registry of the scalar, tuple and operator codecs. -/
def standard (operators : OperatorRegistry) : CodecRegistry where
  byType := ValueType.scalars.map (·, ScalarCodec.encode) ++ [(.operator, OperatorCodec.encode)]
  byKey := [(ValueType.tupleKey, TupleCodec.encode)]
  decoders :=
    [(ScalarCodec.name, ScalarCodec.decode), (TupleCodec.name, TupleCodec.decode),
      (OperatorCodec.name, OperatorCodec.decode operators)]
  frozen := true

end CodecRegistry

end ExprWire
