import ExprWire.Attributes
import ExprWire.Operator.Registry
/-!
Operators as objects, and a registry of them. A reference is an object that is made for another one:
it copies that object's signature and documentation, and passes inference on to it.
-/

namespace ExprWire

/-- An operator as an object: one that refers to no other object, or a reference by name to the
object at a position. -/
inductive OperatorObject where
  | own (operator : Operator)
  | reference (name : String) (signature : Signature) (doc : String) (target : Nat)
  deriving Inhabited

namespace OperatorObject

def signature : OperatorObject → Signature
  | .own operator => operator.signature
  | .reference _ signature _ _ => signature

def doc : OperatorObject → String
  | .own operator => operator.doc
  | .reference _ _ doc _ => doc

variable [Extension]

inductive Infers (objects : List OperatorObject) (inputs : List Attributes) :
    Nat → Attributes → Prop where
  | own {position : Nat} {operator : Operator} (held : objects[position]? = some (.own operator)) :
      Infers objects inputs position (operator.infer inputs)
  | reference {position : Nat} {name : String} {signature : Signature} {doc : String}
      {target : Nat} {attributes : Attributes}
      (held : objects[position]? = some (.reference name signature doc target))
      (passed : Infers objects inputs target attributes) :
      Infers objects inputs position attributes

end OperatorObject

/-- All operator objects, oldest first, and those that names are bound to. -/
structure ObjectRegistry where
  objects : List OperatorObject
  bindings : List (String × Nat)
  frozen : Bool

namespace ObjectRegistry

def empty : ObjectRegistry := ⟨[], [], false⟩

def add (registry : ObjectRegistry) (object : OperatorObject) : Nat × ObjectRegistry :=
  (registry.objects.length, { registry with objects := registry.objects ++ [object] })

def refer (registry : ObjectRegistry) (name : String) (position : Nat) : Nat × ObjectRegistry :=
  let object := registry.objects[position]?.getD default
  registry.add (.reference name object.signature object.doc position)

def find? (registry : ObjectRegistry) (name : String) : Option Nat :=
  registry.bindings.lookup name

def has (registry : ObjectRegistry) (name : String) : Bool := (registry.find? name).isSome

def target (registry : ObjectRegistry) (name : String) : Outcome Nat :=
  match registry.find? name with
  | some position => .ok position
  | none => raise (.operatorNotFound name)

def lookup (registry : ObjectRegistry) (name : String) : Outcome Nat × ObjectRegistry :=
  match registry.target name with
  | .ok position => (registry.refer name position).map .ok id
  | .error problem => (.error problem, registry)

/-- Binds a new name to an object and looks it up. -/
def register (registry : ObjectRegistry) (name : String) (position : Nat) :
    Outcome Nat × ObjectRegistry :=
  if registry.frozen then (raise (.operatorsFrozen name), registry)
  else if name = "" then (raise .emptyOperatorName, registry)
  else if registry.has name then (raise (.operatorExists name), registry)
  else { registry with bindings := registry.bindings ++ [(name, position)] }.lookup name

def freeze (registry : ObjectRegistry) : ObjectRegistry := { registry with frozen := true }

def names (registry : ObjectRegistry) : List String :=
  Text.sortByUnits (registry.bindings.map Prod.fst)

end ObjectRegistry

end ExprWire
