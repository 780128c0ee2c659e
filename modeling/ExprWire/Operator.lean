import ExprWire.Fingerprint
import ExprWire.Signature
import ExprWire.ValueType
/-!
Operators: those of the evaluation backend, the tuple constructor, references into a registry, and
operators of an extension's own family.
-/

namespace ExprWire

inductive Operator where
  /-- The output type, if given, is known once every input type is. -/
  | backend (name : String) (signature : Signature) (doc : String) (output : Option ValueType)
  | makeTuple
  /-- A reference by name, with the operator that the name stood for when it was looked up. -/
  | registered (name : String) (target : Operator)
  /-- An operator of a class that an extension adds, with what it describes itself by besides, and a
  mark that tells it from operators described alike. -/
  | custom (family name : String) (signature : Signature) (doc : String)
      (own : List Fingerprint.Field := []) (mark : Nat := 0)
  deriving Inhabited

namespace Operator

def tupleSignature : Signature := ⟨[], some "fields", by decide, by decide⟩

def family : Operator → String
  | .backend _ _ _ _ => "BackendOperator"
  | .makeTuple => "MakeTupleOperator"
  | .registered _ _ => "RegisteredOperator"
  | .custom family _ _ _ _ _ => family

def name : Operator → String
  | .backend name _ _ _ => name
  | .makeTuple => "core.make_tuple"
  | .registered name _ => name
  | .custom _ name _ _ _ _ => name

def signature : Operator → Signature
  | .backend _ signature _ _ => signature
  | .makeTuple => tupleSignature
  | .registered _ target => target.signature
  | .custom _ _ signature _ _ _ => signature

def doc : Operator → String
  | .backend _ _ doc _ => doc
  | .makeTuple => "Returns a tuple of the inputs."
  | .registered _ target => target.doc
  | .custom _ _ _ doc _ _ => doc

/-- The operator that a chain of references leads to. -/
def resolved : Operator → Operator
  | .registered _ target => target.resolved
  | operator => operator

def ownFields : Operator → List Fingerprint.Field
  | .backend _ _ _ output => [.text ((output.map ValueType.name).getD "")]
  | .custom _ _ _ _ own _ => own
  | _ => []

/-- A reference is identified by its name alone, whatever it refers to. -/
def preimage : Operator → Bytes
  | .registered name _ => Fingerprint.preimage "RegisteredOperator" [.text name]
  | operator =>
      Fingerprint.preimage "ExprOperator"
        (.text operator.family :: .text operator.name :: .text operator.signature.spec ::
          .text operator.doc :: operator.ownFields)

def fingerprint (operator : Operator) : Fingerprint := .ofPreimage operator.preimage

end Operator

end ExprWire
