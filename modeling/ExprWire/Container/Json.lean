import ExprWire.Container
import ExprWire.Fault
import ExprWire.Json.Schema
/-!
The JSON form of containers. Each step is an object with a type; payloads are written in base64.
Reading checks the members in a fixed order and stops at the first that does not fit.
-/

namespace ExprWire

def Json.ofNumbers (xs : List Number) : Json := .array (xs.map .number)

/-- A malformed step has no form of its own and stands as null. -/
def Step.toJson : Step → Json
  | .codec name => .object [("type", .text "codec"), ("name", .text name)]
  | .value payload slot values exprs =>
      .object ([("type", .text "value"), ("payload", .text (Text.Base64.encode payload))] ++
        (slot.map fun index => ("codec_index", Json.number index)).toList ++
        [("input_value_indices", .ofNumbers values), ("input_expr_indices", .ofNumbers exprs)])
  | .literal index =>
      .object [("type", .text "literal_node"), ("literal_value_index", .number index)]
  | .leaf key => .object [("type", .text "leaf_node"), ("leaf_key", .text key)]
  | .placeholder key =>
      .object [("type", .text "placeholder_node"), ("placeholder_key", .text key)]
  | .apply operator deps =>
      .object [("type", .text "operator_node"), ("operator_value_index", .number operator),
        ("input_expr_indices", .ofNumbers deps)]
  | .outputValue index =>
      .object [("type", .text "output_value_index"), ("index", .number index)]
  | .outputExpr index =>
      .object [("type", .text "output_expr_index"), ("index", .number index)]
  | .malformed _ => .null

def Container.toJson (container : Container) : Json :=
  .object ((container.version.map fun version => ("version", Json.number version)).toList ++
    [("decoding_steps", .array (container.steps.map Step.toJson)),
      ("output_value_indices", .ofNumbers container.outputValues),
      ("output_expr_indices", .ofNumbers container.outputExprs)])

namespace Schema

def indices : Option Json → Checked (List Number) := withDefault [] (list integer)

def step (json : Json) : Checked Step := do
  match json with
  | .object _ => pure ()
  | other => refuse (.mistyped "object" other.kind)
  match json.member? "type" with
  | some (.text "codec") =>
      return .codec (← member json "name" (required "codec.name" text))
  | some (.text "value") =>
      let payload ← member json "payload" (withDefault [] base64)
      let slot ← member json "codec_index" (optional integer)
      let values ← member json "input_value_indices" indices
      let exprs ← member json "input_expr_indices" indices
      return .value payload slot values exprs
  | some (.text "literal_node") =>
      return .literal (← member json "literal_value_index"
        (required "literal_node.literal_value_index" integer))
  | some (.text "leaf_node") =>
      return .leaf (← member json "leaf_key" (required "leaf_node.leaf_key" text))
  | some (.text "placeholder_node") =>
      return .placeholder (← member json "placeholder_key"
        (required "placeholder_node.placeholder_key" text))
  | some (.text "operator_node") =>
      let operator ← member json "operator_value_index"
        (required "operator_node.operator_value_index" integer)
      let deps ← member json "input_expr_indices" indices
      return .apply operator deps
  | some (.text "output_value_index") =>
      return .outputValue (← member json "index" (required "output_value_index.index" integer))
  | some (.text "output_expr_index") =>
      return .outputExpr (← member json "index" (required "output_expr_index.index" integer))
  | _ => inside (.member "type") (refuse .unknownStepType)

def container (json : Json) : Checked Container := do
  match json with
  | .object _ => pure ()
  | other => refuse (.mistyped "object" other.kind)
  let version ← member json "version" (optional integer)
  let steps ← member json "decoding_steps" (withDefault [] (list step))
  let outputValues ← member json "output_value_indices" indices
  let outputExprs ← member json "output_expr_indices" indices
  return ⟨version, steps, outputValues, outputExprs⟩

end Schema

/-- The fault for an issue. An issue inside a step is told the way a decoder tells it. -/
def Container.faultOfIssue (issue : Issue) : Fault :=
  match issue.path with
  | .member "decoding_steps" :: .item index :: _ =>
      ⟨.malformedStep issue.complaint, [.handlingStep index]⟩
  | _ => ⟨.malformedContainer issue, []⟩

def Container.ofJson (json : Option Json) : Outcome Container :=
  let checked := match json with
    | none => Schema.refuse (.missing none)
    | some json => Schema.container json
  match checked with
  | .ok container => .ok container
  | .error issue => .error (.fault (faultOfIssue issue))

end ExprWire
