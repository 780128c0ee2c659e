import ExprWire.Bytes
/-!
The IEEE cyclic redundancy check. The checksum in use looks up a byte at a time in a table of 256
remainders; the register beside it divides one bit at a time.
-/

namespace ExprWire.Crc32

def polynomial : UInt32 := 0xedb88320

def shift (register : UInt32) : UInt32 :=
  if register &&& 1 = 1 then polynomial ^^^ (register >>> 1) else register >>> 1

def shiftBy : Nat → UInt32 → UInt32
  | 0, register => register
  | n + 1, register => shiftBy n (shift register)

def table : Vector UInt32 256 := Vector.ofFn fun i => shiftBy 8 (UInt32.ofNat i)

def step (register : UInt32) (byte : UInt8) : UInt32 :=
  table.get (register.toUInt8 ^^^ byte).toFin ^^^ (register >>> 8)

def checksum (bytes : Bytes) : UInt32 := ~~~(bytes.foldl step 0xffffffff)

def bitwiseStep (register : UInt32) (byte : UInt8) : UInt32 :=
  shiftBy 8 (register ^^^ byte.toUInt32)

/-- The remainder register over a byte string: all ones at first, complemented at the end. -/
def remainder (bytes : Bytes) : UInt32 := ~~~(bytes.foldl bitwiseStep 0xffffffff)

end ExprWire.Crc32
