import ExprWire.Bytes
import ExprWire.Json
/-! JSON text: a compact printer and a reader. -/

namespace ExprWire

namespace Json

def escape (c : Char) : List Char :=
  if c = '"' then ['\\', '"']
  else if c = '\\' then ['\\', '\\']
  else if c = '\n' then ['\\', 'n']
  else if c = '\r' then ['\\', 'r']
  else if c = '\t' then ['\\', 't']
  else if c.toNat = 8 then ['\\', 'b']
  else if c.toNat = 12 then ['\\', 'f']
  else if c.toNat < 32 then
    ['\\', 'u', '0', '0', Nat.digitChar (c.toNat / 16), Nat.digitChar (c.toNat % 16)]
  else [c]

def quote (content : String) : String :=
  "\"" ++ String.ofList (content.toList.flatMap escape) ++ "\""

/-- The text of a number; what is not finite has none and stands as null. -/
def numberText : Number → String
  | .other x notWhole => if x.isFinite then (Number.other x notWhole).text else "null"
  | x => x.text

mutual

def print : Json → String
  | .null => "null"
  | .boolean b => if b then "true" else "false"
  | .number x => numberText x
  | .text content => quote content
  | .array items => "[" ++ ",".intercalate (printItems items) ++ "]"
  | .object members => "\x7b" ++ ",".intercalate (printMembers members) ++ "\x7d"

def printItems : List Json → List String
  | [] => []
  | item :: items => print item :: printItems items

def printMembers : List (String × Json) → List String
  | [] => []
  | (name, value) :: members => (quote name ++ ":" ++ print value) :: printMembers members

end

def skipBlanks (cs : List Char) : List Char :=
  cs.dropWhile fun c => c = ' ' || c = '\t' || c = '\n' || c = '\r'

def readHex4 : List Char → Option (Nat × List Char)
  | a :: b :: c :: d :: rest => do
      let a ← Bytes.nibble? a
      let b ← Bytes.nibble? b
      let c ← Bytes.nibble? c
      let d ← Bytes.nibble? d
      return (((a * 16 + b) * 16 + c) * 16 + d, rest)
  | _ => none

/-- The character that a unit stands for, with a second unit if the first is half a pair. -/
def readUnit (cs : List Char) : Option (Char × List Char) := do
  let (unit, rest) ← readHex4 cs
  if 0xD800 ≤ unit ∧ unit < 0xDC00 then
    match rest with
    | '\\' :: 'u' :: second => do
        let (low, rest) ← readHex4 second
        return (Char.ofNat (0x10000 + (unit - 0xD800) * 0x400 + (low - 0xDC00)), rest)
    | _ => none
  else return (Char.ofNat unit, rest)

def readQuoted : Nat → List Char → List Char → Option (String × List Char)
  | 0, _, _ => none
  | fuel + 1, cs, done =>
      match cs with
      | '"' :: rest => some (String.ofList done.reverse, rest)
      | '\\' :: 'u' :: rest => do
          let (c, rest) ← readUnit rest
          readQuoted fuel rest (c :: done)
      | '\\' :: 'n' :: rest => readQuoted fuel rest ('\n' :: done)
      | '\\' :: 'r' :: rest => readQuoted fuel rest ('\r' :: done)
      | '\\' :: 't' :: rest => readQuoted fuel rest ('\t' :: done)
      | '\\' :: 'b' :: rest => readQuoted fuel rest ('\x08' :: done)
      | '\\' :: 'f' :: rest => readQuoted fuel rest ('\x0c' :: done)
      | '\\' :: c :: rest => readQuoted fuel rest (c :: done)
      | c :: rest => readQuoted fuel rest (c :: done)
      | [] => none

def digitsValue (digits : List Char) : Nat :=
  digits.foldl (fun n c => 10 * n + (c.toNat - 48)) 0

def readExponent (cs : List Char) : Int × List Char :=
  match cs with
  | e :: rest =>
      if e = 'e' ∨ e = 'E' then
        let (negative, rest) := match rest with
          | '-' :: rest => (true, rest)
          | '+' :: rest => (false, rest)
          | rest => (false, rest)
        let n : Int := digitsValue (rest.takeWhile Char.isDigit)
        (if negative then -n else n, rest.dropWhile Char.isDigit)
      else (0, cs)
  | [] => (0, [])

def readNumber (cs : List Char) : Option (Number × List Char) :=
  let (negative, cs) := match cs with
    | '-' :: rest => (true, rest)
    | rest => (false, rest)
  let whole := cs.takeWhile Char.isDigit
  let rest := cs.dropWhile Char.isDigit
  let (fraction, rest) := match rest with
    | '.' :: rest => (rest.takeWhile Char.isDigit, rest.dropWhile Char.isDigit)
    | rest => ([], rest)
  let (exponent, rest) := readExponent rest
  if whole.isEmpty then none
  else
    some (.ofDecimal negative (digitsValue (whole ++ fraction)) (exponent - fraction.length),
      rest)

mutual

def readValue : Nat → List Char → Option (Json × List Char)
  | 0, _ => none
  | fuel + 1, cs =>
      match skipBlanks cs with
      | 'n' :: 'u' :: 'l' :: 'l' :: rest => some (.null, rest)
      | 't' :: 'r' :: 'u' :: 'e' :: rest => some (.boolean true, rest)
      | 'f' :: 'a' :: 'l' :: 's' :: 'e' :: rest => some (.boolean false, rest)
      | '"' :: rest => do
          let (content, rest) ← readQuoted (fuel + 1) rest []
          return (.text content, rest)
      | '[' :: rest =>
          match skipBlanks rest with
          | ']' :: rest => some (.array [], rest)
          | rest => do
              let (items, rest) ← readItems fuel rest
              return (.array items, rest)
      | '\x7b' :: rest =>
          match skipBlanks rest with
          | '\x7d' :: rest => some (.object [], rest)
          | rest => do
              let (members, rest) ← readMembers fuel rest
              return (.ofMembers members, rest)
      | cs => do
          let (x, rest) ← readNumber cs
          return (.number x, rest)

def readItems : Nat → List Char → Option (List Json × List Char)
  | 0, _ => none
  | fuel + 1, cs => do
      let (item, rest) ← readValue fuel cs
      match skipBlanks rest with
      | ',' :: rest => do
          let (items, rest) ← readItems fuel rest
          return (item :: items, rest)
      | ']' :: rest => return ([item], rest)
      | _ => none

def readMembers : Nat → List Char → Option (List (String × Json) × List Char)
  | 0, _ => none
  | fuel + 1, cs =>
      match skipBlanks cs with
      | '"' :: rest => do
          let (name, rest) ← readQuoted (fuel + 1) rest []
          match skipBlanks rest with
          | ':' :: rest => do
              let (value, rest) ← readValue fuel rest
              match skipBlanks rest with
              | ',' :: rest => do
                  let (members, rest) ← readMembers fuel rest
                  return ((name, value) :: members, rest)
              | '\x7d' :: rest => return ([(name, value)], rest)
              | _ => none
          | _ => none
      | _ => none

end

def parse? (text : String) : Option Json := do
  let cs := text.toList
  let (value, rest) ← readValue (2 * cs.length + 2) cs
  if (skipBlanks rest).isEmpty then some value else none

end Json

end ExprWire
