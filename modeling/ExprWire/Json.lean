import ExprWire.Number
/-! JSON values. An object's members stand in a fixed order, and each name occurs once. -/

namespace ExprWire

inductive Json where
  | null
  | boolean (b : Bool)
  | number (x : Number)
  | text (content : String)
  | array (items : List Json)
  | object (members : List (String × Json))
  deriving Inhabited

namespace Json

variable {α : Type}

/-- The number that a name spells, if it is the plain decimal text of a list position. -/
def position? (name : String) : Option Nat :=
  match name.toNat? with
  | some n => if toString n = name ∧ n < 0xffffffff then some n else none
  | none => none

/-- Gives a name its value: in its old place if it is there already, and otherwise at the end. -/
def setMember (members : List (String × α)) (name : String) (value : α) : List (String × α) :=
  if members.any fun member => member.1 == name then
    members.map fun member => if member.1 == name then (name, value) else member
  else members ++ [(name, value)]

/-- Members in their standing order: positions first and by number, then names as they came. -/
def inOrder (members : List (String × α)) : List (String × α) :=
  let (positions, others) := members.partition fun member => (position? member.1).isSome
  let before (left right : String × α) : Bool :=
    (position? left.1).getD 0 ≤ (position? right.1).getD 0
  positions.mergeSort before ++ others

/-- An object from members as they are listed; of equal names the last value counts. -/
def ofMembers (members : List (String × Json)) : Json :=
  .object (inOrder (members.foldl (fun known member => setMember known member.1 member.2) []))

def member? (name : String) : Json → Option Json
  | .object members => members.lookup name
  | _ => none

def kind : Json → String
  | .null => "null"
  | .boolean _ => "boolean"
  | .number _ => "number"
  | .text _ => "string"
  | .array _ => "array"
  | .object _ => "object"

end Json

end ExprWire
