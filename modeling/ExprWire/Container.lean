import ExprWire.Bytes
import ExprWire.Number
/-!
Containers: linear programs whose steps each yield a value, an expression, a codec or an output, and
refer to the results of earlier steps by position. Positions are plain numbers until a decoder
checks them.
-/

namespace ExprWire

inductive Step where
  | codec (name : String)
  | value (payload : Bytes) (codec : Option Number) (values exprs : List Number)
  | literal (value : Number)
  | leaf (key : String)
  | placeholder (key : String)
  | apply (operator : Number) (deps : List Number)
  | outputValue (index : Number)
  | outputExpr (index : Number)
  /-- A step from an untyped source whose kind is missing or unknown. -/
  | malformed (kind : Option String)
  deriving DecidableEq

namespace Step

instance : Inhabited Step := ⟨.malformed none⟩

def typeName : Step → String
  | .codec _ => "CODEC"
  | .value _ _ _ _ => "VALUE"
  | .literal _ => "LITERAL_NODE"
  | .leaf _ => "LEAF_NODE"
  | .placeholder _ => "PLACEHOLDER_NODE"
  | .apply _ _ => "OPERATOR_NODE"
  | .outputValue _ => "OUTPUT_VALUE_INDEX"
  | .outputExpr _ => "OUTPUT_EXPR_INDEX"
  | .malformed kind => kind.getD "undefined"

end Step

structure PlacedStep where
  index : Nat
  step : Step
  deriving DecidableEq, Inhabited

/-- Steps with the positions of the outputs. Only untyped sources leave the version out. -/
structure Container where
  version : Option Number
  steps : List Step
  outputValues : List Number
  outputExprs : List Number
  deriving DecidableEq, Inhabited

namespace Container

def currentVersion : Number := 1

end Container

end ExprWire
