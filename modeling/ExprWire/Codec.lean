import ExprWire.Expr
/-!
Codecs. An encoder says how a value is to be stored; a decoder restores a value from a payload, or
declines a payload that is not its own.
-/

namespace ExprWire

/-- How a value is stored. The codec is declared first and the fields are stored next, so a payload
that cannot be made fails only after these. -/
structure Recipe where
  codec : Option String
  /-- Whether the fields of a tuple are stored as values of their own. -/
  fields : Bool
  payload : Outcome Bytes

abbrev ValueEncoder := Value → Outcome Recipe

abbrev ValueDecoder := Bytes → List Value → List Expr → Outcome (Option Value)

abbrev CodecLookup := String → Outcome ValueDecoder

end ExprWire
