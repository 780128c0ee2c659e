import ExprWire.Fault
import ExprWire.Json.Schema
/-! Decoding options: whether applications are checked, and whether their attributes are
inferred. -/

namespace ExprWire

structure Options where
  /-- Check the counts of dependencies against the signatures. -/
  safe : Bool
  /-- Infer the attributes of applications; without effect unless decoding is safe. -/
  inferAttributes : Bool
  deriving DecidableEq, Repr

namespace Options

def default : Options := ⟨true, true⟩

instance : Inhabited Options := ⟨default⟩

def names : List String := ["safe", "inferAttributes"]

def check (json : Json) : Schema.Checked Options := do
  match json with
  | .object members =>
      let safe ← Schema.member json "safe" (Schema.withDefault true Schema.boolean)
      let infer ← Schema.member json "inferAttributes" (Schema.withDefault true Schema.boolean)
      let unknown := (members.map Prod.fst).filter fun name => !names.contains name
      if unknown.isEmpty then return ⟨safe, infer⟩
      else Schema.refuse (.unknownKeys unknown)
  | other => Schema.refuse (.mistyped "object" other.kind)

/-- The options that JSON data describes. What is absent takes its default; no other member may
be there. -/
def ofJson : Option Json → Outcome Options
  | none => .ok default
  | some json =>
      match check json with
      | .ok options => .ok options
      | .error issue => raise (.malformedOptions issue)

end Options

end ExprWire
