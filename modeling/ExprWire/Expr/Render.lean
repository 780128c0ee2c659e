import Std.Data.TreeMap
import ExprWire.Expr
/-!
Short renderings of expressions for messages. Each expression's text is capped at 256 units of 16
bits before it goes into a larger one. `render` keeps the texts of sub-expressions it has met;
`renderPlain` beside it computes every text anew.
-/

namespace ExprWire

namespace Expr

def renderLimit : Nat := 256

def applied (name : String) (args : List String) : String :=
  name ++ "(" ++ ", ".intercalate args ++ ")"

abbrev Renderings := Std.TreeMap Fingerprint String

/-- The text kept for a fingerprint, or else the capped text that is computed and kept for it. -/
def remembered (fingerprint : Fingerprint) (full : StateM Renderings String) :
    StateM Renderings String := do
  match (← get)[fingerprint]? with
  | some text => return text
  | none =>
      let text := Text.cap renderLimit (← full)
      modify (·.insert fingerprint text)
      return text

mutual

def renderWith (expr : Expr) : StateM Renderings String :=
  remembered expr.fingerprint (match expr with
    | .literal value => return value.render
    | .leaf key => return "L." ++ key
    | .placeholder key => return "P." ++ key
    | .apply op deps _ => return applied op.name (← renderAllWith deps))

def renderAllWith : List Expr → StateM Renderings (List String)
  | [] => return []
  | expr :: exprs => do
      let text ← renderWith expr
      let texts ← renderAllWith exprs
      return text :: texts

end

def render (expr : Expr) : String := (renderWith expr |>.run ∅).1

def renderAll (exprs : List Expr) : List String := (renderAllWith exprs |>.run ∅).1

mutual

def renderPlain : Expr → String
  | .literal value => Text.cap renderLimit value.render
  | .leaf key => Text.cap renderLimit ("L." ++ key)
  | .placeholder key => Text.cap renderLimit ("P." ++ key)
  | .apply op deps _ => Text.cap renderLimit (applied op.name (renderAllPlain deps))

def renderAllPlain : List Expr → List String
  | [] => []
  | expr :: exprs => renderPlain expr :: renderAllPlain exprs

end

end Expr

end ExprWire
