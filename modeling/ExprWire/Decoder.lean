import ExprWire.Codec
import ExprWire.Container
import ExprWire.Expr.Call
import ExprWire.Options
/-!
Decoding. A decoder replays steps one at a time and keeps a slot for every position. A step that
fails changes nothing but the number of slots, and no step is accepted after it.
-/

namespace ExprWire

variable [Extension]

structure LoadedCodec where
  name : String
  decode : ValueDecoder

/-- What a position holds: a value or an expression, and perhaps a codec besides. -/
structure Slot where
  value : Option Value
  expr : Option Expr
  codec : Option LoadedCodec

namespace Slot

def empty : Slot := ⟨none, none, none⟩

instance : Inhabited Slot := ⟨empty⟩

def isFree (slot : Slot) : Bool := slot.value.isNone && slot.expr.isNone

end Slot

/-- The results of the steps so far. After a failure nothing more is accepted. -/
structure Decoder where
  options : Options
  lookup : CodecLookup
  slots : Array Slot
  codecs : Array LoadedCodec
  outputValues : List Value
  outputExprs : List Expr
  failed : Bool

structure Decoded where
  values : List Value
  exprs : List Expr
  deriving Inhabited

namespace Decoder

def start (lookup : CodecLookup) (options : Options) : Decoder :=
  ⟨options, lookup, #[], #[], [], [], false⟩

def size (decoder : Decoder) : Nat := decoder.slots.size

def slot (decoder : Decoder) (position : Nat) : Slot := decoder.slots.getD position .empty

def below? (limit : Nat) (index : Number) : Option Nat :=
  match index.toNat? with
  | some position => if position < limit then some position else none
  | none => none

def loadValue (decoder : Decoder) (limit : Nat) (index : Number) : Outcome Value :=
  match below? limit index with
  | none => raise (.valueOutOfRange index)
  | some position =>
      match decoder.slot position with
      | ⟨some value, _, _⟩ => .ok value
      | ⟨none, some _, _⟩ => raise (.exprForValue position)
      | ⟨none, none, _⟩ => raise (.noValue position)

def loadExpr (decoder : Decoder) (limit : Nat) (index : Number) : Outcome Expr :=
  match below? limit index with
  | none => raise (.exprOutOfRange index)
  | some position =>
      match decoder.slot position with
      | ⟨_, some expr, _⟩ => .ok expr
      | ⟨some _, none, _⟩ => raise (.valueForExpr position)
      | ⟨none, none, _⟩ => raise (.noExpr position)

def storeValue (decoder : Decoder) (position : Nat) (value : Value) : Outcome Decoder :=
  let slot := decoder.slot position
  if slot.isFree then
    .ok { decoder with slots := decoder.slots.setIfInBounds position { slot with value := value } }
  else raise .valueCollision

def storeExpr (decoder : Decoder) (position : Nat) (expr : Expr) : Outcome Decoder :=
  let slot := decoder.slot position
  if slot.isFree then
    .ok { decoder with slots := decoder.slots.setIfInBounds position { slot with expr := expr } }
  else raise .exprCollision

def storeCodec (decoder : Decoder) (position : Nat) (name : String) : Outcome Decoder := do
  let slot := decoder.slot position
  if slot.codec.isSome then raise .codecCollision
  let codec : LoadedCodec := ⟨name, ← decoder.lookup name⟩
  return { decoder with
    slots := decoder.slots.setIfInBounds position { slot with codec := codec }
    codecs := decoder.codecs.push codec }

/-- What the codec in a slot makes of a payload. -/
def tryCodec (slot : Nat) (codec : LoadedCodec) (payload : Bytes) (values : List Value)
    (exprs : List Expr) : Outcome (Option Value) :=
  annotate (.usingCodec slot codec.name) (codec.decode payload values exprs)

/-- The value that the first codec from a slot on to recognise a payload makes of it. -/
def tryCodecs (payload : Bytes) (values : List Value) (exprs : List Expr) :
    Nat → List LoadedCodec → Outcome Value
  | _, [] => raise .undetectedCodec
  | slot, codec :: codecs => do
      match ← tryCodec slot codec payload values exprs with
      | some value => return value
      | none => tryCodecs payload values exprs (slot + 1) codecs

def decodeValue (decoder : Decoder) (codec : Option Number) (payload : Bytes)
    (values : List Value) (exprs : List Expr) : Outcome Value := do
  match codec with
  | none => tryCodecs payload values exprs 0 decoder.codecs.toList
  | some index =>
      match index.toNat?.bind fun slot => decoder.codecs[slot]?.map (slot, ·) with
      | none => raise (.codecOutOfRange index)
      | some (slot, codec) =>
          match ← tryCodec slot codec payload values exprs with
          | some value => return value
          | none => raise (.notRecognised slot codec.name)

def applyOperator (decoder : Decoder) (limit : Nat) (operator : Number) (deps : List Number) :
    Outcome Expr := do
  match ← decoder.loadValue limit operator with
  | .operator op =>
      let deps ← deps.mapM (decoder.loadExpr limit)
      if decoder.options.safe then Expr.call op deps decoder.options.inferAttributes
      else return .unchecked op deps
  | value => raise (.notOperator operator value.type.name)

def accept (decoder : Decoder) (position : Nat) (step : Step) : Outcome Decoder :=
  let noted := annotate (α := Decoder) (.ofStepType step.typeName)
  match step with
  | .literal index => noted do
      decoder.storeExpr position (.literal (← decoder.loadValue position index))
  | .leaf key => noted (decoder.storeExpr position (.leaf key))
  | .placeholder key => noted (decoder.storeExpr position (.placeholder key))
  | .apply operator deps => noted do
      decoder.storeExpr position (← decoder.applyOperator position operator deps)
  | .value payload codec values exprs => noted do
      let values ← values.mapM (decoder.loadValue position)
      let exprs ← exprs.mapM (decoder.loadExpr position)
      decoder.storeValue position (← decoder.decodeValue codec payload values exprs)
  | .codec name => noted (decoder.storeCodec position name)
  | .outputValue index => noted do
      let value ← decoder.loadValue position index
      return { decoder with outputValues := decoder.outputValues ++ [value] }
  | .outputExpr index => noted do
      let expr ← decoder.loadExpr position index
      return { decoder with outputExprs := decoder.outputExprs ++ [expr] }
  | .malformed none => raise .missingStepType
  | .malformed (some kind) => raise (.unexpectedStepType kind)

/-- The decoder with a slot at the position that a number denotes: one that is there already, or the
next one. -/
def place (decoder : Decoder) (index : Number) : Outcome (Nat × Decoder) :=
  match index.toNat? with
  | some position =>
      if position < decoder.size then .ok (position, decoder)
      else if position = decoder.size then
        .ok (position, { decoder with slots := decoder.slots.push .empty })
      else raise (.unexpectedPosition index decoder.size)
  | none => raise (.unexpectedPosition index decoder.size)

def ensureUsable (decoder : Decoder) : Outcome Unit :=
  if decoder.failed then raise .alreadyFailed else .ok ()

def onStep (decoder : Decoder) (index : Number) (step : Step) : Outcome Unit × Decoder :=
  match decoder.ensureUsable with
  | .error problem => (.error problem, decoder)
  | .ok () =>
      match decoder.place index with
      | .error problem => (.error problem, { decoder with failed := true })
      | .ok (position, placed) =>
          match placed.accept position step with
          | .error problem => (.error problem, { placed with failed := true })
          | .ok accepted => (.ok (), accepted)

/-- The outputs that marker steps have named, in the order of the markers. -/
def finish (decoder : Decoder) : Outcome Decoded := do
  decoder.ensureUsable
  return ⟨decoder.outputValues, decoder.outputExprs⟩

def resolveValues (decoder : Decoder) (indices : List Number) : Outcome (List Value) := do
  decoder.ensureUsable
  indices.mapM (decoder.loadValue decoder.size)

def resolveExprs (decoder : Decoder) (indices : List Number) : Outcome (List Expr) := do
  decoder.ensureUsable
  indices.mapM (decoder.loadExpr decoder.size)

def onSteps (decoder : Decoder) : List PlacedStep → Outcome Decoder
  | [] => .ok decoder
  | placed :: steps => do
      let (result, after) := decoder.onStep placed.index placed.step
      result
      onSteps after steps

def replaySteps (decoder : Decoder) : Nat → List Step → Outcome Decoder
  | _, [] => .ok decoder
  | position, step :: steps => do
      let (result, after) := decoder.onStep position step
      annotate (.handlingStep position) result
      replaySteps after (position + 1) steps

end Decoder

namespace Container

def checkVersion (container : Container) : Outcome Unit :=
  match container.version with
  | none => raise .missingVersion
  | some version =>
      if version = currentVersion then .ok () else raise (.wrongVersion version)

/-- Replays all steps. The outputs of marker steps come before those that the container lists. -/
def replay (lookup : CodecLookup) (options : Options) (container : Container) :
    Outcome Decoded := do
  let decoder ← (Decoder.start lookup options).replaySteps 0 container.steps
  let marked ← decoder.finish
  let values ← annotate .loadingOutputValues (decoder.resolveValues container.outputValues)
  let exprs ← annotate .loadingOutputExprs (decoder.resolveExprs container.outputExprs)
  return ⟨marked.values ++ values, marked.exprs ++ exprs⟩

def decode (lookup : CodecLookup) (options : Options) (container : Container) :
    Outcome Decoded := do
  container.checkVersion
  container.replay lookup options

/-- The same under options that are still JSON data; the version is checked before the options. -/
def decodeUnder (lookup : CodecLookup) (options : Option Json) (container : Container) :
    Outcome Decoded := do
  container.checkVersion
  container.replay lookup (← Options.ofJson options)

end Container

def PlacedStep.decodeStream (lookup : CodecLookup) (options : Options)
    (stream : List PlacedStep) : Outcome Decoded := do
  (← (Decoder.start lookup options).onSteps stream).finish

end ExprWire
