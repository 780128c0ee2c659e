/-! How many dependencies an operator takes. -/

namespace ExprWire

structure Arity where
  required : Nat
  unbounded : Bool
  deriving DecidableEq, Repr

namespace Arity

def accepts (arity : Arity) (count : Nat) : Bool :=
  if arity.unbounded then arity.required ≤ count else count = arity.required

def text (arity : Arity) : String :=
  if arity.unbounded then s!"at least {arity.required}" else toString arity.required

end Arity

end ExprWire
