/-! The types of values: eight scalars, operators, and tuples of types. -/

namespace ExprWire

inductive ValueType where
  | float32
  | float64
  | int32
  | int64
  | boolean
  | text
  | bytes
  | unit
  | operator
  | tuple (fields : List ValueType)
  deriving Repr, Inhabited

namespace ValueType

def tupleName (names : List String) : String := "tuple<" ++ ",".intercalate names ++ ">"

mutual

def name : ValueType → String
  | .float32 => "FLOAT32"
  | .float64 => "FLOAT64"
  | .int32 => "INT32"
  | .int64 => "INT64"
  | .boolean => "BOOLEAN"
  | .text => "TEXT"
  | .bytes => "BYTES"
  | .unit => "UNIT"
  | .operator => "EXPR_OPERATOR"
  | .tuple fields => tupleName (names fields)

def names : List ValueType → List String
  | [] => []
  | type :: types => name type :: names types

end

theorem names_eq_map (types : List ValueType) : names types = types.map name := by
  induction types with
  | nil => rfl
  | cons type types ih => rw [names, List.map_cons, ih]

/-- Types are the same exactly when their names are. -/
instance : BEq ValueType := ⟨fun left right => left.name == right.name⟩

def scalars : List ValueType :=
  [.float32, .float64, .int32, .int64, .boolean, .text, .bytes, .unit]

def ofName? (name : String) : Option ValueType :=
  (.operator :: scalars).find? fun type => type.name == name

def tupleKey : String := "::dagwire::TupleQType"

/-- The key that all tuple types share; other types have the empty key. -/
def key : ValueType → String
  | .tuple _ => tupleKey
  | _ => ""

end ValueType

end ExprWire
