import ExprWire.Codec.Registry
import ExprWire.Container
import ExprWire.Expr.Order
import ExprWire.Expr.Render
/-!
Encoding. An encoder emits the steps that build values and expressions, each value and expression
once per fingerprint and each codec once per name, so that a step refers to earlier steps only.
-/

namespace ExprWire

/-- The steps emitted so far, and where each value and expression stands among them. -/
structure Encoder where
  steps : Array Step
  /-- The declared codecs; a codec's slot is its place in this list. -/
  codecs : List String
  values : Std.TreeMap Fingerprint Nat
  exprs : Std.TreeMap Fingerprint Nat

namespace Encoder

def empty : Encoder := ⟨#[], [], ∅, ∅⟩

instance : Inhabited Encoder := ⟨empty⟩

def stream (encoder : Encoder) : List PlacedStep :=
  encoder.steps.toList.zipIdx.map fun (step, index) => ⟨index, step⟩

end Encoder

/-- Encoding with failures; the steps emitted before a failure stay. -/
abbrev Encoding := ExceptT Problem (StateM Encoder)

namespace Encoding

variable {α : Type}

def emit (step : Step) : Encoding Nat := do
  let encoder ← get
  let position := encoder.steps.size
  set { encoder with steps := encoder.steps.push step }
  return position

def declare (name : String) : Encoding Nat := do
  let encoder ← get
  match encoder.codecs.idxOf? name with
  | some slot => return slot
  | none =>
      let _ ← emit (.codec name)
      modify fun encoder => { encoder with codecs := encoder.codecs ++ [name] }
      return encoder.codecs.length

def declareFor (recipe : Recipe) : Encoding (Option Number) :=
  match recipe.codec with
  | some name => return some (← declare name)
  | none => return none

/-- Emits what a recipe asks for, and gives the content of the step that is still to be emitted. -/
def follow (recipe : Recipe) (fields : Encoding (List Nat)) :
    Encoding (Bytes × Option Number × List Nat) := do
  let slot ← declareFor recipe
  let inputs ← if recipe.fields then fields else pure []
  let payload ← recipe.payload
  return (payload, slot, inputs)

variable (encode : ValueEncoder)

/-- The position of a value. If it has none yet, its steps are emitted, with those of its fields
first. -/
def valueOnce (v : Value) (fields : Encoding (List Nat)) : Encoding Nat := do
  match (← get).values[v.fingerprint]? with
  | some position => return position
  | none =>
      let (payload, slot, inputs) ← follow (← encode v) fields
      let position ← emit (.value payload slot (inputs.map Number.ofNat) [])
      modify fun encoder =>
        { encoder with values := encoder.values.insert v.fingerprint position }
      return position

mutual

def value (v : Value) : Encoding Nat :=
  valueOnce encode v (match v with
    | .tuple fields => values fields
    | _ => return [])

def values : List Value → Encoding (List Nat)
  | [] => return []
  | v :: vs => do
      let position ← value v
      let positions ← values vs
      return position :: positions

end

def fields (v : Value) : Encoding (List Nat) :=
  match v with
  | .tuple fields => values encode fields
  | _ => return []

def find (expr : Expr) : Encoding Nat := do
  match (← get).exprs[expr.fingerprint]? with
  | some position => return position
  | none => raise (.missingDependency expr.render)

def node : Expr → Encoding Nat
  | .literal v => do emit (.literal (← value encode v))
  | .leaf key => emit (.leaf key)
  | .placeholder key => emit (.placeholder key)
  | .apply op deps _ => do
      let operator ← value encode (.operator op)
      let inputs ← deps.mapM find
      emit (.apply operator (inputs.map Number.ofNat))

def visit (expr : Expr) : Encoding Unit := do
  unless (← get).exprs.contains expr.fingerprint do
    let position ← node encode expr
    modify fun encoder =>
      { encoder with exprs := encoder.exprs.insert expr.fingerprint position }

/-- The position of an expression; what has not been emitted of it is, dependencies first. -/
def expr (root : Expr) : Encoding Nat := do
  match (← get).exprs[root.fingerprint]? with
  | some position => return position
  | none =>
      root.postOrder.forM (visit encode)
      find root

def noting (note : Note) (encoding : Encoding α) : Encoding α := fun encoder =>
  let (result, after) := encoding.run encoder
  (annotate note result, after)

def rootValues : Nat → List Value → Encoding (List Nat)
  | _, [] => return []
  | index, v :: vs => do
      let position ← noting (.encodingValue index) (value encode v)
      let positions ← rootValues (index + 1) vs
      return position :: positions

def rootExprs : Nat → List Expr → Encoding (List Nat)
  | _, [] => return []
  | index, e :: es => do
      let position ← noting (.encodingExpr index) (expr encode e)
      let positions ← rootExprs (index + 1) es
      return position :: positions

/-- The same with a marker step after each value. -/
def markValues : Nat → List Value → Encoding Unit
  | _, [] => return ()
  | index, v :: vs => do
      let position ← noting (.encodingValue index) (value encode v)
      let _ ← emit (.outputValue position)
      markValues (index + 1) vs

def markExprs : Nat → List Expr → Encoding Unit
  | _, [] => return ()
  | index, e :: es => do
      let position ← noting (.encodingExpr index) (expr encode e)
      let _ ← emit (.outputExpr position)
      markExprs (index + 1) es

end Encoding

def Container.encode (encode : ValueEncoder) (values : List Value) (exprs : List Expr) :
    Outcome Container :=
  let encoding : Encoding (List Nat × List Nat) := do
    let outputValues ← Encoding.rootValues encode 0 values
    let outputExprs ← Encoding.rootExprs encode 0 exprs
    return (outputValues, outputExprs)
  match encoding.run .empty with
  | (.ok (outputValues, outputExprs), encoder) =>
      .ok ⟨some currentVersion, encoder.steps.toList,
        outputValues.map Number.ofNat, outputExprs.map Number.ofNat⟩
  | (.error problem, _) => .error problem

def PlacedStep.encodeStream (encode : ValueEncoder) (values : List Value) (exprs : List Expr) :
    Outcome (List PlacedStep) :=
  let encoding : Encoding Unit := do
    Encoding.markValues encode 0 values
    Encoding.markExprs encode 0 exprs
  match encoding.run .empty with
  | (.ok (), encoder) => .ok encoder.stream
  | (.error problem, _) => .error problem

end ExprWire
