import ExprWire.Crc32
import ExprWire.Word
/-!
The table-driven checksum over numbers that are not words by themselves: between two bytes the
register is a signed number, and only the last shift makes the checksum an unsigned one.
-/

namespace ExprWire.Crc32.Signed

def shift (register : Int) : Int :=
  if Word.and register 1 ≠ 0 then Word.xor 0xedb88320 (Word.shiftRight register 1)
  else Word.shiftRight register 1

def shiftBy : Nat → Int → Int
  | 0, register => register
  | n + 1, register => shiftBy n (shift register)

/-- The table keeps the bits of its entries. -/
def table : Vector UInt32 256 := Vector.ofFn fun i => Word.bits (shiftBy 8 (i : Nat))

def step (register : Int) (byte : UInt8) : Int :=
  Word.xor
    (Word.unsigned (table.get ⟨_, Word.and_byte_lt (Word.xor register byte.toNat)⟩))
    (Word.shiftRight register 8)

def checksum (bytes : Bytes) : Int :=
  Word.shiftRight (Word.xor (bytes.foldl step 0xffffffff) 0xffffffff) 0

end ExprWire.Crc32.Signed
