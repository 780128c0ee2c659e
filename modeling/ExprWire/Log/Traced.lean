import ExprWire.Log
import ExprWire.Serialize
/-!
The operations that report what they have done. Each succeeds and fails as the operation that it is
named after, and adds one event when it succeeds.
-/

namespace ExprWire

namespace Log

inductive Event where
  | registryFrozen (types keys codecs : Nat)
  | encoded (steps values exprs : Nat)
  | streamed (steps : Nat)
  | written (bytes steps : Nat)
  | decoded (steps values exprs : Nat)
  deriving DecidableEq, Repr

namespace Event

def count (n : Nat) : Json := .number n

def sizes (steps values exprs : Nat) : List (String × Json) :=
  [("steps", count steps), ("values", count values), ("exprs", count exprs)]

def entry (elapsed : Elapsed) : Event → Entry
  | .registryFrozen types keys codecs =>
      ⟨.debug, "codec registry frozen",
        some [("qtypes", count types), ("keys", count keys), ("codecs", count codecs)]⟩
  | .encoded steps values exprs => .timed "encode" (sizes steps values exprs) elapsed
  | .streamed steps =>
      ⟨.debug, s!"encodeAsStream: {steps} steps", some [("steps", count steps)]⟩
  | .written bytes steps =>
      ⟨.debug, s!"writeContainer: {bytes} bytes", some [("steps", count steps)]⟩
  | .decoded steps values exprs => .timed "decode" (sizes steps values exprs) elapsed

end Event

end Log

/-- An operation that may fail, with the events up to there. -/
abbrev Traced := ExceptT Problem (StateM (List Log.Event))

namespace Traced

def report (event : Log.Event) : Traced Unit := modify (· ++ [event])

def frozen (registry : CodecRegistry) : Traced CodecRegistry := do
  report (.registryFrozen registry.byType.length registry.byKey.length registry.decoders.length)
  return registry.freeze

def standardRegistry (operators : OperatorRegistry) : Traced CodecRegistry :=
  frozen (CodecRegistry.standard operators)

def encode (encode : ValueEncoder) (values : List Value) (exprs : List Expr) :
    Traced Container := do
  let container ← Container.encode encode values exprs
  report (.encoded container.steps.length values.length exprs.length)
  return container

def encodeStream (encode : ValueEncoder) (values : List Value) (exprs : List Expr) :
    Traced (List PlacedStep) := do
  let stream ← PlacedStep.encodeStream encode values exprs
  report (.streamed stream.length)
  return stream

def write (container : Container) : Traced Bytes := do
  let bytes ← container.write
  report (.written bytes.length container.steps.length)
  return bytes

def decode [Extension] (lookup : CodecLookup) (options : Option Json) (container : Container) :
    Traced Decoded := do
  let decoded ← container.decodeUnder lookup options
  report (.decoded container.steps.length container.outputValues.length
    container.outputExprs.length)
  return decoded

end Traced

end ExprWire
