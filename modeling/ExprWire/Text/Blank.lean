/-! Blank characters, trimming, and the parts of a list separated by commas. -/

namespace ExprWire.Text

/-- Tabs, line ends, the byte order mark and every Unicode space separator. -/
def isBlank (c : Char) : Bool :=
  (9 ≤ c.toNat && c.toNat ≤ 13) || c.toNat == 0x20 || c.toNat == 0xA0 || c.toNat == 0x1680 ||
    (0x2000 ≤ c.toNat && c.toNat ≤ 0x200A) || c.toNat == 0x2028 || c.toNat == 0x2029 ||
    c.toNat == 0x202F || c.toNat == 0x205F || c.toNat == 0x3000 || c.toNat == 0xFEFF

def trim (cs : List Char) : List Char :=
  ((cs.dropWhile isBlank).reverse.dropWhile isBlank).reverse

/-- The stretches between commas; there is one more of them than there are commas. -/
def commaParts : List Char → List (List Char)
  | [] => [[]]
  | c :: cs =>
      match c, commaParts cs with
      | ',', parts => [] :: parts
      | c, [] => [[c]]
      | c, part :: parts => (c :: part) :: parts

end ExprWire.Text
