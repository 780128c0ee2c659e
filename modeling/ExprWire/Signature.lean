import ExprWire.Fault
import ExprWire.Text.Blank
/-!
Operator signatures: parameter names, of which the last may be variadic. A signature's names are
legal and distinct by construction.
-/

namespace ExprWire

def isNameStart (c : Char) : Bool :=
  ('A' ≤ c && c ≤ 'Z') || ('a' ≤ c && c ≤ 'z') || c == '_'

def isNameChar (c : Char) : Bool := isNameStart c || ('0' ≤ c && c ≤ '9')

def isParameterName (name : String) : Bool :=
  match name.toList with
  | [] => false
  | c :: cs => isNameStart c && cs.all isNameChar

structure Signature where
  positional : List String
  variadic : Option String
  legal : ∀ name ∈ positional ++ variadic.toList, isParameterName name = true
  distinct : (positional ++ variadic.toList).Nodup
  deriving DecidableEq

namespace Signature

def empty : Signature := ⟨[], none, by simp, by simp⟩

instance : Inhabited Signature := ⟨empty⟩

def parameters (signature : Signature) : List String :=
  signature.positional ++ (signature.variadic.map ("*" ++ ·)).toList

def spec (signature : Signature) : String := ", ".intercalate signature.parameters

def arity (signature : Signature) : Arity :=
  ⟨signature.positional.length, signature.variadic.isSome⟩

def checkCount (signature : Signature) (count : Nat) : Outcome Unit :=
  if signature.arity.accepts count then .ok ()
  else raise (.wrongDependencyCount signature.arity count)

def addPositional (signature : Signature) (fixed : signature.variadic = none) (name : String)
    (legal : isParameterName name = true) (fresh : name ∉ signature.positional) : Signature where
  positional := signature.positional ++ [name]
  variadic := none
  legal := by
    have known := signature.legal
    simp only [fixed, Option.toList_none, List.append_nil] at known
    intro other present
    simp only [Option.toList_none, List.append_nil, List.mem_append, List.mem_singleton] at present
    rcases present with present | rfl
    · exact known other present
    · exact legal
  distinct := by
    have known := signature.distinct
    simp only [fixed, Option.toList_none, List.append_nil] at known
    simp only [Option.toList_none, List.append_nil, List.nodup_append, List.mem_singleton]
    refine ⟨known, by simp, ?_⟩
    rintro other present _ rfl rfl
    exact fresh present

def addVariadic (signature : Signature) (fixed : signature.variadic = none) (name : String)
    (legal : isParameterName name = true) (fresh : name ∉ signature.positional) : Signature where
  positional := signature.positional
  variadic := some name
  legal := by
    have known := (signature.addPositional fixed name legal fresh).legal
    simpa [addPositional] using known
  distinct := by
    have known := (signature.addPositional fixed name legal fresh).distinct
    simpa [addPositional] using known

/-- Adds the parameters that the parts of a specification name, up to the first that is wrong. -/
def addParts (spec : String) :
    (signature : Signature) → signature.variadic = none → List (List Char) → Outcome Signature
  | signature, _, [] => .ok signature
  | signature, fixed, part :: rest =>
      let starred := part.head? == some '*'
      let name := String.ofList (if starred then part.tail else part)
      if legal : isParameterName name = true then
        if fresh : name ∈ signature.positional then
          raise (.repeatedParameter name spec)
        else if starred then
          if rest.isEmpty then .ok (signature.addVariadic fixed name legal fresh)
          else raise (.misplacedVariadic spec)
        else addParts spec (signature.addPositional fixed name legal fresh) rfl rest
      else raise (.illegalParameter (String.ofList part) spec)

/-- Reads a comma-separated specification; blanks around it and around its parts do not count. -/
def parse (spec : String) : Outcome Signature :=
  match Text.trim spec.toList with
  | [] => .ok empty
  | cs => addParts spec empty rfl ((Text.commaParts cs).map Text.trim)

end Signature

end ExprWire
