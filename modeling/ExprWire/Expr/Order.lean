import Std.Data.TreeSet
import ExprWire.Expr
/-!
The distinct sub-expressions of an expression, each dependency before its dependents. `postOrder`
walks with a stack of unfinished expressions and marks an expression when it is pushed; `depthFirst`
beside it is the plain recursive walk that skips what it has listed.
-/

namespace ExprWire

namespace Expr

abbrev Seen := Std.TreeSet Fingerprint

structure Frame where
  expr : Expr
  rest : List Expr

def stackWeight : List Frame → Nat
  | [] => 0
  | frame :: below => 1 + weightAll frame.rest + stackWeight below

/-- Finishes every expression on the stack; the finished ones are listed latest first. -/
def walk (seen : Seen) (stack : List Frame) (finished : List Expr) : List Expr :=
  match stack with
  | [] => finished
  | ⟨expr, []⟩ :: below => walk seen below (expr :: finished)
  | ⟨expr, dep :: rest⟩ :: below =>
      if seen.contains dep.fingerprint then walk seen (⟨expr, rest⟩ :: below) finished
      else walk (seen.insert dep.fingerprint) (⟨dep, dep.deps⟩ :: ⟨expr, rest⟩ :: below) finished
termination_by stackWeight stack
decreasing_by
  · show stackWeight below < 1 + 0 + stackWeight below
    omega
  · show 1 + weightAll rest + stackWeight below <
      1 + (1 + weight dep + weightAll rest) + stackWeight below
    omega
  · have := weightAll_deps_lt dep
    show 1 + weightAll dep.deps + (1 + weightAll rest + stackWeight below) <
      1 + (1 + weight dep + weightAll rest) + stackWeight below
    omega

/-- The distinct sub-expressions, dependencies first and the expression itself last. -/
def postOrder (expr : Expr) : List Expr :=
  (walk (Std.TreeSet.empty.insert expr.fingerprint) [⟨expr, expr.deps⟩] []).reverse

mutual

/-- Lists what has not been listed yet of an expression, dependencies first. -/
def depthFirst (expr : Expr) (listed : List Expr) : List Expr :=
  if listed.any fun other => other.fingerprint = expr.fingerprint then listed
  else
    (match expr with
      | .apply _ deps _ => depthFirstAll deps listed
      | _ => listed) ++ [expr]

def depthFirstAll : List Expr → List Expr → List Expr
  | [], listed => listed
  | expr :: exprs, listed => depthFirstAll exprs (depthFirst expr listed)

end

def sortedKeys (keys : List String) : List String := Text.sortByUnits keys.eraseDups

def leafKeys (expr : Expr) : List String :=
  sortedKeys (expr.postOrder.filterMap fun
    | .leaf key => some key
    | _ => none)

def placeholderKeys (expr : Expr) : List String :=
  sortedKeys (expr.postOrder.filterMap fun
    | .placeholder key => some key
    | _ => none)

end Expr

end ExprWire
