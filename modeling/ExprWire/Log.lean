import ExprWire.Fault
import ExprWire.Json.Text
/-!
Logging. A logger prints the entries at or above its level and then hands them to its subscribers;
a subscriber that fails costs one more line and does not stop the others.
-/

namespace ExprWire.Log

inductive Level where
  | debug
  | info
  | warn
  | error
  deriving DecidableEq, Repr, Inhabited

namespace Level

def rank : Level → Nat
  | .debug => 0
  | .info => 1
  | .warn => 2
  | .error => 3

def name : Level → String
  | .debug => "debug"
  | .info => "info"
  | .warn => "warn"
  | .error => "error"

def ofName? (name : String) : Option Level :=
  [debug, info, warn, error].find? fun level => level.name == name

/-- The level that a setting of the environment asks for; what is not understood means `info`. -/
def ofSetting : Option String → Level
  | some "1" | some "true" => .debug
  | some "warn" => .warn
  | some "error" => .error
  | _ => .info

end Level

structure Elapsed where
  hundredths : Nat
  deriving DecidableEq, Repr, Inhabited

namespace Elapsed

def text (elapsed : Elapsed) : String :=
  let digit (n : Nat) : Char := Nat.digitChar (n % 10)
  toString (elapsed.hundredths / 100) ++
    String.ofList ['.', digit (elapsed.hundredths / 10), digit elapsed.hundredths] ++ "ms"

def json (elapsed : Elapsed) : Json := .number (.ofDecimal false elapsed.hundredths (-2))

end Elapsed

structure Entry where
  level : Level
  message : String
  data : Option (List (String × Json))

namespace Entry

def line (entry : Entry) : String :=
  let data := match entry.data with
    | some members => " " ++ (Json.ofMembers members).print
    | none => ""
  s!"[dagwire] {entry.message}" ++ data

def timed (label : String) (data : List (String × Json)) (elapsed : Elapsed) : Entry :=
  ⟨.debug, label ++ ": " ++ elapsed.text, some (data ++ [("durationMs", elapsed.json)])⟩

end Entry

structure Subscriber where
  id : String
  receive : Entry → Outcome Unit

structure Logger where
  level : Level
  subscribers : List Subscriber

/-- What happens when an entry is logged, in order. -/
inductive Effect where
  | printed (level : Level) (line : String)
  | received (id : String) (entry : Entry)

namespace Logger

def subscribe (logger : Logger) (subscriber : Subscriber) : Logger :=
  if logger.subscribers.any fun other => other.id == subscriber.id then logger
  else { logger with subscribers := logger.subscribers ++ [subscriber] }

def unsubscribe (logger : Logger) (id : String) : Bool × Logger :=
  (logger.subscribers.any fun subscriber => subscriber.id == id,
    { logger with subscribers := logger.subscribers.filter fun other => other.id != id })

def deliver (entry : Entry) (subscriber : Subscriber) : List Effect :=
  .received subscriber.id entry ::
    match subscriber.receive entry with
    | .ok () => []
    | .error problem => [.printed .error ("[dagwire] Log callback error: " ++ problem.message)]

def log (logger : Logger) (entry : Entry) : List Effect :=
  if entry.level.rank < logger.level.rank then []
  else .printed entry.level entry.line :: logger.subscribers.flatMap (deliver entry)

end Logger

end ExprWire.Log
