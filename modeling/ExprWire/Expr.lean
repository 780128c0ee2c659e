import ExprWire.Attributes
/-!
Expressions: literals, leaves, placeholders and applications of operators. An expression keeps its
fingerprint, which covers kind and content but not the attributes.
-/

namespace ExprWire

inductive Expr where
  | literal (value : Value)
  | leaf (key : String)
  | placeholder (key : String)
  | apply (op : Operator) (deps : List Expr) (attributes : Attributes)
with
  @[computed_field] fingerprint : Expr → Fingerprint
    | .literal value => .of "LiteralNode" [.ofFingerprint value.fingerprint]
    | .leaf key => .of "LeafNode" [.text key]
    | .placeholder key => .of "PlaceholderNode" [.text key]
    | .apply op deps _ =>
        .of "OperatorNode" (.ofFingerprint op.fingerprint ::
          deps.map fun dep => .ofFingerprint dep.fingerprint)

namespace Expr

instance : Inhabited Expr := ⟨.leaf ""⟩

def deps : Expr → List Expr
  | .apply _ deps _ => deps
  | _ => []

def attributes : Expr → Attributes
  | .literal value => .ofValue value
  | .apply _ _ attributes => attributes
  | _ => .unknown

mutual

def weight : Expr → Nat
  | .apply _ deps _ => 1 + weightAll deps
  | _ => 1

def weightAll : List Expr → Nat
  | [] => 0
  | expr :: exprs => 1 + weight expr + weightAll exprs

end

theorem weightAll_deps_lt (expr : Expr) : weightAll expr.deps < weight expr := by
  cases expr with
  | literal value => exact Nat.one_pos
  | leaf key => exact Nat.one_pos
  | placeholder key => exact Nat.one_pos
  | apply op deps attributes =>
      show weightAll deps < 1 + weightAll deps
      omega

end Expr

end ExprWire
