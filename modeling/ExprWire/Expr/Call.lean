import ExprWire.Expr.Render
import ExprWire.Operator.Registry
/-! Applying operators to expressions. -/

namespace ExprWire

namespace Expr

variable [Extension]

def unchecked (op : Operator) (deps : List Expr) : Expr := .apply op deps .unknown

def call (op : Operator) (deps : List Expr) (infer : Bool := true) : Outcome Expr := do
  match op.signature.checkCount deps.length with
  | .ok () =>
      return .apply op deps (if infer then op.infer (deps.map attributes) else .unknown)
  | .error problem =>
      throw (.fault (problem.withNote (.callingOperator op.name (renderAll deps))))

def callNamed (operators : Option OperatorRegistry) (name : String) (deps : List Expr) :
    Outcome Expr :=
  match operators with
  | none => raise (.noOperators name)
  | some registry => do call (← registry.lookup name) deps

end Expr

end ExprWire
