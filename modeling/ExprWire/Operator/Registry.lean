import ExprWire.Operator
/-! Operators by name. A registry is filled first and then frozen; names are bound once. -/

namespace ExprWire

structure OperatorRegistry where
  entries : List (String × Operator)
  frozen : Bool

namespace OperatorRegistry

def empty : OperatorRegistry := ⟨[], false⟩

instance : Inhabited OperatorRegistry := ⟨empty⟩

def find? (registry : OperatorRegistry) (name : String) : Option Operator :=
  registry.entries.lookup name

def has (registry : OperatorRegistry) (name : String) : Bool := (registry.find? name).isSome

def target (registry : OperatorRegistry) (name : String) : Outcome Operator :=
  match registry.find? name with
  | some operator => .ok operator
  | none => raise (.operatorNotFound name)

def lookup (registry : OperatorRegistry) (name : String) : Outcome Operator :=
  (registry.target name).map (.registered name)

def register (registry : OperatorRegistry) (name : String) (operator : Operator) :
    Outcome (Operator × OperatorRegistry) :=
  if registry.frozen then raise (.operatorsFrozen name)
  else if name = "" then raise .emptyOperatorName
  else if registry.has name then raise (.operatorExists name)
  else
    .ok (.registered name operator,
      { registry with entries := registry.entries ++ [(name, operator)] })

def freeze (registry : OperatorRegistry) : OperatorRegistry := { registry with frozen := true }

def names (registry : OperatorRegistry) : List String :=
  Text.sortByUnits (registry.entries.map Prod.fst)

end OperatorRegistry

end ExprWire
