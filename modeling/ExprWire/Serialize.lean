import ExprWire.Container.Binary
import ExprWire.Decoder
import ExprWire.Encoder
/-! Values and expressions to containers and bytes and back, with the codecs of one registry. -/

namespace ExprWire

def serialize (registry : CodecRegistry) (values : List Value) (exprs : List Expr) :
    Outcome Container :=
  Container.encode registry.encoder values exprs

variable [Extension]

def deserialize (registry : CodecRegistry) (options : Options) (container : Container) :
    Outcome Decoded :=
  container.decode registry.lookup options

def serializeToBytes (registry : CodecRegistry) (values : List Value) (exprs : List Expr) :
    Outcome Bytes := do
  (← serialize registry values exprs).write

def deserializeFromBytes (registry : CodecRegistry) (options : Options) (bytes : Bytes) :
    Outcome Decoded := do
  deserialize registry options (← Container.read bytes)

end ExprWire
