import ExprWire.ValueType
/-!
Types as objects. The plain types exist from the start; a tuple type is made at the first request
for its fields, and later requests find it again by its name.
-/

namespace ExprWire

/-- A type as an object. A tuple type refers to its fields, which are objects themselves, by their
positions among all type objects. -/
structure TypeObject where
  name : String
  key : String
  fields : Option (List Nat)
  deriving DecidableEq, Repr

/-- All type objects, oldest first, and the tuple types by name. -/
structure TypeTable where
  objects : List TypeObject
  tuples : List (String × Nat)
  deriving DecidableEq, Repr

namespace TypeTable

def plain : List ValueType := .operator :: ValueType.scalars

def start : TypeTable := ⟨plain.map fun type => ⟨type.name, type.key, none⟩, []⟩

/-- The position of the tuple type with these fields, and the table that holds it. There is no
answer if a field is no object. -/
def tuple (table : TypeTable) (fields : List Nat) : Option (Nat × TypeTable) := do
  let objects ← fields.mapM fun position => table.objects[position]?
  let name := ValueType.tupleName (objects.map TypeObject.name)
  match table.tuples.lookup name with
  | some position => return (position, table)
  | none =>
      let position := table.objects.length
      return (position,
        ⟨table.objects ++ [⟨name, ValueType.tupleKey, some fields⟩],
          table.tuples ++ [(name, position)]⟩)

end TypeTable

end ExprWire
