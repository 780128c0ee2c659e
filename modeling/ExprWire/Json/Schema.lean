import ExprWire.Issue
import ExprWire.Json
import ExprWire.Text.Base64
/-! Checks of JSON data. A check gives what the data describes, or the first issue it meets. -/

namespace ExprWire

namespace Schema

abbrev Checked := Except Issue

variable {α : Type}

def refuse (complaint : Complaint) : Checked α := .error ⟨complaint, []⟩

def inside (place : Place) : Checked α → Checked α
  | .ok a => .ok a
  | .error issue => .error (issue.under place)

def member (json : Json) (name : String) (check : Option Json → Checked α) : Checked α :=
  inside (.member name) (check (json.member? name))

def integer (json : Json) : Checked Number :=
  match json with
  | .number (.whole n) => .ok (.whole n)
  | .number _ => refuse .notWhole
  | other => refuse (.mistyped "number" other.kind)

def text (json : Json) : Checked String :=
  match json with
  | .text content => .ok content
  | other => refuse (.mistyped "string" other.kind)

def boolean (json : Json) : Checked Bool :=
  match json with
  | .boolean b => .ok b
  | other => refuse (.mistyped "boolean" other.kind)

def base64 (json : Json) : Checked Bytes := do
  match Text.Base64.decode? (← text json) with
  | some bytes => return bytes
  | none => refuse .notBase64

def items (check : Json → Checked α) : Nat → List Json → Checked (List α)
  | _, [] => .ok []
  | index, json :: rest => do
      let a ← inside (.item index) (check json)
      let as ← items check (index + 1) rest
      return a :: as

def list (check : Json → Checked α) (json : Json) : Checked (List α) :=
  match json with
  | .array jsons => items check 0 jsons
  | other => refuse (.mistyped "array" other.kind)

/-- A member that must be there; the label stands in the message if it is not. -/
def required (label : String) (check : Json → Checked α) : Option Json → Checked α
  | none => refuse (.missing (some label))
  | some json => check json

def withDefault (absent : α) (check : Json → Checked α) : Option Json → Checked α
  | none => .ok absent
  | some json => check json

def optional (check : Json → Checked α) : Option Json → Checked (Option α)
  | none => .ok none
  | some json => some <$> check json

end Schema

end ExprWire
