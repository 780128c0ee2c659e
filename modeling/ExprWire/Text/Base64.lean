import ExprWire.Bytes
/-! Base64 with the standard alphabet and padding. -/

namespace ExprWire.Text.Base64

def digit (n : Nat) : Char :=
  if n < 26 then Char.ofNat (65 + n)
  else if n < 52 then Char.ofNat (71 + n)
  else if n < 62 then Char.ofNat (n - 4)
  else if n = 62 then '+'
  else '/'

def value? (c : Char) : Option Nat :=
  if 'A' ≤ c ∧ c ≤ 'Z' then some (c.toNat - 65)
  else if 'a' ≤ c ∧ c ≤ 'z' then some (c.toNat - 71)
  else if '0' ≤ c ∧ c ≤ '9' then some (c.toNat + 4)
  else if c = '+' then some 62
  else if c = '/' then some 63
  else none

/-- Four digits for three bytes; a shorter last group is filled up with equals signs. -/
def encodeDigits : Bytes → List Char
  | [] => []
  | [x] => [digit (x.toNat / 4), digit (x.toNat % 4 * 16), '=', '=']
  | [x, y] =>
      [digit (x.toNat / 4), digit (x.toNat % 4 * 16 + y.toNat / 16),
        digit (y.toNat % 16 * 4), '=']
  | x :: y :: z :: rest =>
      digit (x.toNat / 4) :: digit (x.toNat % 4 * 16 + y.toNat / 16) ::
        digit (y.toNat % 16 * 4 + z.toNat / 64) :: digit (z.toNat % 64) :: encodeDigits rest

def encode (bytes : Bytes) : String := String.ofList (encodeDigits bytes)

/-- Whole groups only; equals signs stand at the end alone, and bits that fill no byte are
dropped. -/
def decodeDigits? : List Char → Option Bytes
  | [] => some []
  | [a, b, '=', '='] => do
      let i ← value? a
      let j ← value? b
      return [UInt8.ofNat (i * 4 + j / 16)]
  | [a, b, c, '='] => do
      let i ← value? a
      let j ← value? b
      let k ← value? c
      return [UInt8.ofNat (i * 4 + j / 16), UInt8.ofNat (j % 16 * 16 + k / 4)]
  | a :: b :: c :: d :: rest => do
      let i ← value? a
      let j ← value? b
      let k ← value? c
      let l ← value? d
      let bytes ← decodeDigits? rest
      return UInt8.ofNat (i * 4 + j / 16) :: UInt8.ofNat (j % 16 * 16 + k / 4) ::
        UInt8.ofNat (k % 4 * 64 + l) :: bytes
  | _ => none

def decode? (text : String) : Option Bytes := decodeDigits? text.toList

end ExprWire.Text.Base64
