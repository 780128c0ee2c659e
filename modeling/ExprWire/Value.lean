import ExprWire.Operator
/-!
Typed values. A value's type and fingerprint are determined by its content and kept with it, so that
shared fields are described once.
-/

namespace ExprWire

/-- An integer of 32 bits that keeps the sign of zero. -/
inductive Integer32 where
  | word (n : Int32)
  | minusZero
  deriving DecidableEq, Repr, Inhabited

namespace Integer32

def toInt : Integer32 → Int
  | .word n => n.toInt
  | .minusZero => 0

def toBinary64 : Integer32 → Binary64
  | .word n => .ofInt n.toInt
  | .minusZero => .ofMagnitude true 0

def fits (n : Int) : Bool := -0x80000000 ≤ n ∧ n < 0x80000000

def ofBinary64 (x : Binary64) : Outcome Integer32 :=
  if x = .ofMagnitude true 0 then .ok .minusZero
  else
    match x.toInt? with
    | some n =>
        if fits n then .ok (.word (Int32.ofInt n))
        else raise (.notInt32 (.ofBinary64 x))
    | none => raise (.notInt32 (.ofBinary64 x))

def ofNumber : Number → Outcome Integer32
  | .whole n =>
      if fits n then .ok (.word (Int32.ofInt n))
      else raise (.notInt32 (.whole n))
  | x => raise (.notInt32 x)

end Integer32

def Fingerprint.ofTyped (type : ValueType) (fields : List Field) : Fingerprint :=
  .of "TypedValue" (.text type.name :: fields)

inductive Value where
  | float32 (x : Binary32)
  | float64 (x : Binary64)
  | int32 (n : Integer32)
  | int64 (n : Int64)
  | boolean (b : Bool)
  | text (content : String)
  | bytes (content : Bytes)
  | unit
  | tuple (fields : List Value)
  | operator (op : Operator)
with
  @[computed_field] type : Value → ValueType
    | .float32 _ => .float32
    | .float64 _ => .float64
    | .int32 _ => .int32
    | .int64 _ => .int64
    | .boolean _ => .boolean
    | .text _ => .text
    | .bytes _ => .bytes
    | .unit => .unit
    | .tuple fields => .tuple (fields.map fun field => field.type)
    | .operator _ => .operator
  @[computed_field] fingerprint : Value → Fingerprint
    | .float32 x => .ofTyped .float32 [.number x.widen]
    | .float64 x => .ofTyped .float64 [.number x]
    | .int32 n => .ofTyped .int32 [.number n.toBinary64]
    | .int64 n => .ofTyped .int64 [.integer n.toInt]
    | .boolean b => .ofTyped .boolean [.number (.ofInt b.toInt)]
    | .text content => .ofTyped .text [.text content]
    | .bytes content => .ofTyped .bytes [.bytes content]
    | .unit => .ofTyped .unit []
    | .tuple fields =>
        .ofTyped (.tuple (fields.map fun field => field.type))
          (fields.map fun field => .ofFingerprint field.fingerprint)
    | .operator op => .ofTyped .operator [.ofFingerprint op.fingerprint]

namespace Value

instance : Inhabited Value := ⟨.unit⟩

/-- A 64-bit integer from any integer, modulo 2^64. -/
def ofInt64 (n : Int) : Value := .int64 (Int64.ofInt n)

mutual

def render : Value → String
  | .float32 x => "float32\x7b" ++ x.widen.text ++ "\x7d"
  | .float64 x => "float64\x7b" ++ x.text ++ "\x7d"
  | .int32 n => toString n.toInt
  | .int64 n => "int64\x7b" ++ toString n.toInt ++ "\x7d"
  | .boolean b => if b then "true" else "false"
  | .text content => "'" ++ content ++ "'"
  | .bytes content => "b'" ++ Bytes.hex content ++ "'"
  | .unit => "unit"
  | .tuple fields => "(" ++ ", ".intercalate (renderAll fields) ++ ")"
  | .operator op => op.name

def renderAll : List Value → List String
  | [] => []
  | value :: values => render value :: renderAll values

end

def mismatch {α : Type} (expected : String) (value : Value) : Outcome α :=
  raise (.typeMismatch expected value.type.name)

def toNumber : Value → Outcome Binary64
  | .float32 x => .ok x.widen
  | .float64 x => .ok x
  | .int32 n => .ok n.toBinary64
  | value => mismatch "FLOAT32|FLOAT64|INT32" value

def toInteger : Value → Outcome Int
  | .int64 n => .ok n.toInt
  | value => mismatch "INT64" value

def toBoolean : Value → Outcome Bool
  | .boolean b => .ok b
  | value => mismatch "BOOLEAN" value

def toText : Value → Outcome String
  | .text content => .ok content
  | value => mismatch "TEXT" value

def toBytes : Value → Outcome Bytes
  | .bytes content => .ok content
  | value => mismatch "BYTES" value

def toFields : Value → Outcome (List Value)
  | .tuple fields => .ok fields
  | value => mismatch "tuple" value

def toOperator : Value → Outcome Operator
  | .operator op => .ok op
  | value => mismatch "EXPR_OPERATOR" value

/-- Values are the same if their types and fingerprints are. -/
instance : BEq Value :=
  ⟨fun left right => left.type == right.type && left.fingerprint == right.fingerprint⟩

end Value

end ExprWire
