import ExprWire.Value
/-!
What is known about an expression without evaluating it: the type of its result and, where it is
constant, the result itself.
-/

namespace ExprWire

structure Attributes where
  type : Option ValueType
  value : Option Value

namespace Attributes

def unknown : Attributes := ⟨none, none⟩

def ofValue (value : Value) : Attributes := ⟨some value.type, some value⟩

instance : Inhabited Attributes := ⟨unknown⟩

/-- A tuple's type needs all field types, and its value all field values besides. -/
def ofTuple (fields : List Attributes) : Attributes :=
  match fields.mapM Attributes.type with
  | none => unknown
  | some types =>
      match fields.mapM Attributes.value with
      | none => ⟨some (.tuple types), none⟩
      | some values => ⟨some (.tuple types), some (.tuple values)⟩

end Attributes

/-- What the operators that an extension adds infer, of which nothing is known here. -/
class Extension where
  infer : Operator → List Attributes → Attributes

/-- What is known about an application of the operator. -/
def Operator.infer [Extension] (inputs : List Attributes) : Operator → Attributes
  | .backend _ _ _ output =>
      if inputs.all fun input => input.type.isSome then ⟨output, none⟩ else .unknown
  | .makeTuple => .ofTuple inputs
  | .registered _ target => target.infer inputs
  | .custom family name signature doc own mark =>
      Extension.infer (.custom family name signature doc own mark) inputs

/-- Where no extension is given, its operators leave everything open. -/
instance Extension.silent : Extension := ⟨fun _ _ => .unknown⟩

end ExprWire
