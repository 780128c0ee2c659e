import ExprWire.Arity
import ExprWire.Issue
import ExprWire.Number
/-!
Failures. A fault is a cause with the notes of the activities it interrupted; anything else that an
extension throws is foreign, and becomes a fault of unknown status as soon as a note is added.
-/

namespace ExprWire

inductive Status where
  | invalidArgument
  | failedPrecondition
  | notFound
  | unimplemented
  | internal
  | unknown
  deriving DecidableEq, Repr

namespace Status

def code : Status → String
  | .invalidArgument => "INVALID_ARGUMENT"
  | .failedPrecondition => "FAILED_PRECONDITION"
  | .notFound => "NOT_FOUND"
  | .unimplemented => "UNIMPLEMENTED"
  | .internal => "INTERNAL"
  | .unknown => "UNKNOWN"

end Status

inductive Category where
  | invalidArgument
  | failedPrecondition
  | notFound
  | unimplemented
  | general (status : Status)
  deriving DecidableEq, Repr

namespace Category

def status : Category → Status
  | .invalidArgument => .invalidArgument
  | .failedPrecondition => .failedPrecondition
  | .notFound => .notFound
  | .unimplemented => .unimplemented
  | .general status => status

def name : Category → String
  | .invalidArgument => "InvalidArgumentError"
  | .failedPrecondition => "FailedPreconditionError"
  | .notFound => "NotFoundError"
  | .unimplemented => "UnimplementedError"
  | .general _ => "DagwireError"

end Category

/-- Something thrown by an extension that is no fault: an error with a message, or bare text. -/
inductive Foreign where
  | error (message : String)
  | text (content : String)
  deriving DecidableEq, Repr

namespace Foreign

def message : Foreign → String
  | .error message => message
  | .text content => content

end Foreign

inductive Cause where
  -- values
  | typeMismatch (expected actual : String)
  | notInt32 (x : Number)
  -- signatures and operators
  | illegalParameter (part spec : String)
  | repeatedParameter (name spec : String)
  | misplacedVariadic (spec : String)
  | wrongDependencyCount (arity : Arity) (count : Nat)
  | operatorsFrozen (name : String)
  | emptyOperatorName
  | operatorExists (name : String)
  | operatorNotFound (name : String)
  | noOperators (name : String)
  -- bytes
  | notVarint (x : Number)
  | endOfData (offset : Nat)
  | trailingData (offset : Nat)
  | overlongVarint (offset : Nat)
  | notUtf8 (offset : Nat)
  -- containers
  | missingVersion
  | wrongVersion (version : Number)
  | badMagic
  | truncatedContainer
  | wrongChecksum
  | excessiveSteps (count : Nat)
  | excessiveIndices (count : Nat)
  | wrongCodecFlag (flag : Nat)
  | unknownStepTag (tag : Nat)
  | malformedContainer (issue : Issue)
  | malformedStep (complaint : Complaint)
  | malformedOptions (issue : Issue)
  -- codecs
  | codecsFrozen
  | encoderExists (type : String)
  | emptyKey
  | keyExists (key : String)
  | emptyCodecName
  | codecExists (name : String)
  | noEncoder (type key value : String)
  | unknownCodec (name : String)
  | unsupportedType (codec type : String)
  | scalarWithInputs
  | wrongBoolean (byte : Nat)
  | unknownScalarCode (code : Nat)
  | tupleWithExprs
  | operatorWithInputs
  | unknownTypeName (name : String)
  | unknownOperatorKind (kind : Nat)
  | unsupportedOutput (operator type : String)
  | unsupportedOperator (operator : String)
  -- encoding
  | missingDependency (expr : String)
  -- decoding
  | alreadyFailed
  | unexpectedPosition (index : Number) (count : Nat)
  | codecCollision
  | valueCollision
  | exprCollision
  | codecOutOfRange (index : Number)
  | valueOutOfRange (index : Number)
  | exprOutOfRange (index : Number)
  | exprForValue (index : Nat)
  | valueForExpr (index : Nat)
  | noValue (index : Nat)
  | noExpr (index : Nat)
  | notOperator (index : Number) (type : String)
  | notRecognised (slot : Nat) (codec : String)
  | undetectedCodec
  | missingStepType
  | unexpectedStepType (kind : String)
  -- extensions
  | stated (category : Category) (message : String)
  | foreign (thrown : Foreign)
  deriving DecidableEq

namespace Cause

def category : Cause → Category
  | .operatorsFrozen _ | .operatorExists _ | .codecsFrozen | .missingDependency _
  | .alreadyFailed | .codecCollision | .valueCollision | .exprCollision => .failedPrecondition
  | .operatorNotFound _ | .notRecognised _ _ => .notFound
  | .noEncoder _ _ _ | .unsupportedOutput _ _ | .unsupportedOperator _ => .unimplemented
  | .stated category _ => category
  | .foreign _ => .general .unknown
  | _ => .invalidArgument

def status (cause : Cause) : Status := cause.category.status

def message : Cause → String
  | .typeMismatch expected actual => s!"type mismatch: expected {expected}, got {actual}"
  | .notInt32 x => s!"expected an int32, got {x}"
  | .illegalParameter part spec => s!"illegal parameter name '{part}' in signature \"{spec}\""
  | .repeatedParameter name spec => s!"duplicated parameter name '{name}' in signature \"{spec}\""
  | .misplacedVariadic spec => s!"variadic parameter must be the last in signature \"{spec}\""
  | .wrongDependencyCount arity count =>
      "incorrect number of dependencies passed to an operator node: expected " ++
        s!"{arity.text} but got {count}"
  | .operatorsFrozen name => s!"operator registry is frozen; cannot register '{name}'"
  | .emptyOperatorName => "operator name is empty"
  | .operatorExists name => s!"operator '{name}' already exists"
  | .operatorNotFound name => s!"operator '{name}' not found"
  | .noOperators name => s!"cannot resolve operator '{name}' without a registry"
  | .notVarint x => s!"cannot write {x} as an unsigned varint"
  | .endOfData offset => s!"unexpected end of data at offset {offset}"
  | .trailingData offset => s!"unexpected trailing data at offset {offset}"
  | .overlongVarint offset => s!"varint too long at offset {offset}"
  | .notUtf8 offset => s!"invalid UTF-8 string at offset {offset}"
  | .missingVersion => "missing container.version"
  | .wrongVersion version => s!"expected container.version to be 1, got {version}"
  | .badMagic => "malformed container: bad magic bytes"
  | .truncatedContainer => "malformed container: unexpected end of data"
  | .wrongChecksum => "malformed container: checksum mismatch"
  | .excessiveSteps count => s!"malformed container: step count {count} exceeds remaining data"
  | .excessiveIndices count => s!"index count {count} exceeds remaining data"
  | .wrongCodecFlag flag => s!"malformed container: invalid codec flag {flag}"
  | .unknownStepTag tag => s!"malformed container: unknown step tag {tag}"
  | .malformedContainer issue => "invalid container: " ++ issue.text
  | .malformedStep complaint => complaint.text
  | .malformedOptions issue => "invalid decoding options: " ++ issue.text
  | .codecsFrozen => "codec registry is frozen"
  | .encoderExists type => s!"value_encoder for qtype={type} has been already registered"
  | .emptyKey => "specialization_key is empty"
  | .keyExists key => s!"value_encoder for specialization_key='{key}' has been already registered"
  | .emptyCodecName => "codec name is empty"
  | .codecExists name => s!"value_decoder for codec_name='{name}' has been already registered"
  | .noEncoder type key value =>
      s!"cannot serialize value: qtype={type}, specialization_key='{key}': {value}"
  | .unknownCodec name => s!"unknown codec: \"{name}\""
  | .unsupportedType codec type => s!"{codec} does not support qtype={type}"
  | .scalarWithInputs => "scalar values take no input values or expressions"
  | .wrongBoolean byte => s!"invalid boolean byte {byte}"
  | .unknownScalarCode code => s!"unknown scalar type code {code}"
  | .tupleWithExprs => "tuple values take no input expressions"
  | .operatorWithInputs => "operator values take no input values or expressions"
  | .unknownTypeName name => s!"unknown qtype name '{name}'"
  | .unknownOperatorKind kind => s!"unknown operator kind {kind}"
  | .unsupportedOutput operator type =>
      s!"cannot serialize backend operator {operator} with output qtype={type}"
  | .unsupportedOperator operator => s!"cannot serialize operator {operator}"
  | .missingDependency expr =>
      s!"unable to find the serialized dependency {expr}; this is an internal error"
  | .alreadyFailed => "decoder is in a failed state after a previous error"
  | .unexpectedPosition index count =>
      s!"encountered unexpected decoding_step_index={index}, indicating missing step {count}"
  | .codecCollision => "codec_index collision"
  | .valueCollision => "value_index collision"
  | .exprCollision => "expr_index collision"
  | .codecOutOfRange index => s!"codec index is out of range: {index}"
  | .valueOutOfRange index => s!"value index is out of range: {index}"
  | .exprOutOfRange index => s!"expr index is out of range: {index}"
  | .exprForValue index =>
      s!"expected a value in decoding_step_results[{index}], got an expression"
  | .valueForExpr index =>
      s!"expected an expression in decoding_step_results[{index}], got a value"
  | .noValue index => s!"found no value in decoding_step_results[{index}]"
  | .noExpr index => s!"found no expression in decoding_step_results[{index}]"
  | .notOperator index type =>
      s!"expected a value of EXPR_OPERATOR type in decoding_step_results[{index}], got {type}"
  | .notRecognised slot codec => s!"no extension found; codecs[{slot}]={codec}"
  | .undetectedCodec => "unable to detect codec"
  | .missingStepType => "missing decoding_step.type"
  | .unexpectedStepType kind => s!"unexpected decoding_step.type={kind}"
  | .stated _ message => message
  | .foreign thrown => thrown.message

end Cause

inductive Note where
  | callingOperator (name : String) (args : List String)
  | encodingValue (index : Nat)
  | encodingExpr (index : Nat)
  | writingStep (index : Nat)
  | readingStep (index : Nat)
  | readingOutputValues
  | readingOutputExprs
  | handlingStep (index : Nat)
  | ofStepType (name : String)
  | usingCodec (slot : Nat) (name : String)
  | loadingOutputValues
  | loadingOutputExprs
  | plain (words : String)
  deriving DecidableEq, Repr

namespace Note

def text : Note → String
  | .callingOperator name args =>
      s!"while calling {name} with args \x7b" ++ ", ".intercalate args ++ "\x7d"
  | .encodingValue index => s!"while encoding values[{index}]"
  | .encodingExpr index => s!"while encoding exprs[{index}]"
  | .writingStep index => s!"while writing decoding_steps[{index}]"
  | .readingStep index => s!"while reading decoding_steps[{index}]"
  | .readingOutputValues => "while reading output_value_indices"
  | .readingOutputExprs => "while reading output_expr_indices"
  | .handlingStep index => s!"while handling decoding_steps[{index}]"
  | .ofStepType name => s!"decoding_step.type={name}"
  | .usingCodec slot name => s!"codecs[{slot}]={name}"
  | .loadingOutputValues => "while loading output values"
  | .loadingOutputExprs => "while loading output expressions"
  | .plain words => words

end Note

structure Fault where
  cause : Cause
  notes : List Note
  deriving DecidableEq

namespace Fault

def status (fault : Fault) : Status := fault.cause.status

def message (fault : Fault) : String :=
  "; ".intercalate (fault.cause.message :: fault.notes.map Note.text)

def addNote (fault : Fault) (note : Note) : Fault :=
  { fault with notes := fault.notes ++ [note] }

end Fault

inductive Problem where
  | fault (inner : Fault)
  | foreign (thrown : Foreign)
  deriving DecidableEq

namespace Problem

def of (cause : Cause) : Problem := .fault ⟨cause, []⟩

def message : Problem → String
  | .fault inner => inner.message
  | .foreign thrown => thrown.message

/-- A fault takes the note and keeps its status; a foreign error becomes a new fault's cause. -/
def withNote (note : Note) : Problem → Fault
  | .fault inner => inner.addNote note
  | .foreign thrown => ⟨.foreign thrown, [note]⟩

def hasStatus (status : Status) : Problem → Bool
  | .fault inner => inner.status = status
  | .foreign _ => false

end Problem

abbrev Outcome := Except Problem

def raise {m : Type → Type} {α : Type} [MonadExceptOf Problem m] (cause : Cause) : m α :=
  throw (.of cause)

def annotate {α : Type} (note : Note) : Outcome α → Outcome α
  | .ok a => .ok a
  | .error problem => .error (.fault (problem.withNote note))

end ExprWire
