import ExprWire.Bytes
/-! The SHA-256 digest of a byte string. -/

namespace ExprWire.Sha256

structure State where
  a : UInt32
  b : UInt32
  c : UInt32
  d : UInt32
  e : UInt32
  f : UInt32
  g : UInt32
  h : UInt32
  deriving DecidableEq, Repr

def start : State :=
  ⟨0x6a09e667, 0xbb67ae85, 0x3c6ef372, 0xa54ff53a, 0x510e527f, 0x9b05688c, 0x1f83d9ab, 0x5be0cd19⟩

def roundConstants : List UInt32 :=
  [0x428a2f98, 0x71374491, 0xb5c0fbcf, 0xe9b5dba5, 0x3956c25b, 0x59f111f1, 0x923f82a4, 0xab1c5ed5,
   0xd807aa98, 0x12835b01, 0x243185be, 0x550c7dc3, 0x72be5d74, 0x80deb1fe, 0x9bdc06a7, 0xc19bf174,
   0xe49b69c1, 0xefbe4786, 0x0fc19dc6, 0x240ca1cc, 0x2de92c6f, 0x4a7484aa, 0x5cb0a9dc, 0x76f988da,
   0x983e5152, 0xa831c66d, 0xb00327c8, 0xbf597fc7, 0xc6e00bf3, 0xd5a79147, 0x06ca6351, 0x14292967,
   0x27b70a85, 0x2e1b2138, 0x4d2c6dfc, 0x53380d13, 0x650a7354, 0x766a0abb, 0x81c2c92e, 0x92722c85,
   0xa2bfe8a1, 0xa81a664b, 0xc24b8b70, 0xc76c51a3, 0xd192e819, 0xd6990624, 0xf40e3585, 0x106aa070,
   0x19a4c116, 0x1e376c08, 0x2748774c, 0x34b0bcb5, 0x391c0cb3, 0x4ed8aa4a, 0x5b9cca4f, 0x682e6ff3,
   0x748f82ee, 0x78a5636f, 0x84c87814, 0x8cc70208, 0x90befffa, 0xa4506ceb, 0xbef9a3f7, 0xc67178f2]

def rotate (x : UInt32) (n : UInt32) : UInt32 := (x >>> n) ||| (x <<< (32 - n))

def nextWord (window : List UInt32) : UInt32 :=
  let x := window.getD 14 0
  let y := window.getD 1 0
  (rotate x 17 ^^^ rotate x 19 ^^^ (x >>> 10)) + window.getD 9 0 +
    (rotate y 7 ^^^ rotate y 18 ^^^ (y >>> 3)) + window.getD 0 0

def round (s : State) (constant word : UInt32) : State :=
  let t := s.h + (rotate s.e 6 ^^^ rotate s.e 11 ^^^ rotate s.e 25) +
    ((s.e &&& s.f) ^^^ (~~~s.e &&& s.g)) + constant + word
  let u := (rotate s.a 2 ^^^ rotate s.a 13 ^^^ rotate s.a 22) +
    ((s.a &&& s.b) ^^^ (s.a &&& s.c) ^^^ (s.b &&& s.c))
  ⟨t + u, s.a, s.b, s.c, s.d + t, s.e, s.f, s.g⟩

/-- The sixty-four rounds; the window always holds the next sixteen words of the schedule. -/
def rounds : List UInt32 → List UInt32 → State → State
  | [], _, s => s
  | constant :: constants, window, s =>
      rounds constants (window.tail ++ [nextWord window]) (round s constant (window.headD 0))

def compress (s : State) (block : List UInt32) : State :=
  let r := rounds roundConstants block s
  ⟨s.a + r.a, s.b + r.b, s.c + r.c, s.d + r.d, s.e + r.e, s.f + r.f, s.g + r.g, s.h + r.h⟩

def absorb : Nat → List UInt32 → State → State
  | 0, _, s => s
  | blocks + 1, words, s => absorb blocks (words.drop 16) (compress s (words.take 16))

def bigEndian (width n : Nat) : Bytes := (Bytes.littleEndian width n).reverse

/-- The message, a one bit, zeros up to eight bytes before a block's end, and the length in bits. -/
def pad (message : Bytes) : Bytes :=
  message ++ 0x80 :: List.replicate ((119 - message.length % 64) % 64) 0 ++
    bigEndian 8 (8 * message.length)

def words : Bytes → List UInt32
  | w :: x :: y :: z :: rest =>
      (w.toUInt32 <<< 24 ||| x.toUInt32 <<< 16 ||| y.toUInt32 <<< 8 ||| z.toUInt32) :: words rest
  | _ => []

def digest (message : Bytes) : Bytes :=
  let ws := words (pad message)
  let s := absorb (ws.length / 16) ws start
  [s.a, s.b, s.c, s.d, s.e, s.f, s.g, s.h].flatMap fun word => bigEndian 4 word.toNat

end ExprWire.Sha256
