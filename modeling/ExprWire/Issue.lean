/-! What is wrong with structured data that a schema refuses, and where. -/

namespace ExprWire

/-- One step into nested data: a named member or a list position. -/
inductive Place where
  | member (name : String)
  | item (index : Nat)
  deriving DecidableEq, Repr

namespace Place

def text : Place → String
  | .member name => name
  | .item index => toString index

end Place

inductive Complaint where
  /-- A member without a default is absent; the label, if any, stands in the message. -/
  | missing (label : Option String)
  | mistyped (expected received : String)
  | notWhole
  | notBase64
  | unknownStepType
  | unknownKeys (keys : List String)
  deriving DecidableEq, Repr

namespace Complaint

def text : Complaint → String
  | .missing none => "Required"
  | .missing (some label) => s!"missing {label}"
  | .mistyped expected received => s!"Expected {expected}, received {received}"
  | .notWhole => "Expected integer, received float"
  | .notBase64 => "Invalid base64"
  | .unknownStepType => "missing or unknown decoding_step.type"
  | .unknownKeys keys =>
      let quoted := ", ".intercalate (keys.map fun key => "'" ++ key ++ "'")
      s!"Unrecognized key(s) in object: {quoted}"

end Complaint

structure Issue where
  complaint : Complaint
  path : List Place
  deriving DecidableEq, Repr

namespace Issue

/-- The complaint, followed by its place unless that is the whole of the data. -/
def text (issue : Issue) : String :=
  match issue.path with
  | [] => issue.complaint.text
  | path => issue.complaint.text ++ " at " ++ ".".intercalate (path.map Place.text)

def under (place : Place) (issue : Issue) : Issue :=
  { issue with path := place :: issue.path }

end Issue

end ExprWire
