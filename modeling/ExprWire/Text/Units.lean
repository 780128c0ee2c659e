/-!
Text measured in 16-bit units: a scalar value beyond U+FFFF counts as the two halves of its
surrogate pair. Length, order and cuts of names and renderings go by these units.
-/

namespace ExprWire.Text

def unitsOfChar (c : Char) : List Nat :=
  if c.toNat < 0x10000 then [c.toNat]
  else [0xD800 + (c.toNat - 0x10000) / 0x400, 0xDC00 + (c.toNat - 0x10000) % 0x400]

def units (text : String) : List Nat := text.toList.flatMap unitsOfChar

def width (text : String) : Nat := (units text).length

def compareUnits (left right : String) : Ordering := compare (units left) (units right)

def unitsLe (left right : String) : Bool := (compareUnits left right).isLE

def sortByUnits (texts : List String) : List String := texts.mergeSort unitsLe

/-- The first `n` units; a pair that the cut would split leaves U+FFFD for its first half. -/
def takeUnits : Nat → List Char → List Char
  | 0, _ => []
  | _, [] => []
  | n + 1, c :: cs =>
      if c.toNat < 0x10000 then c :: takeUnits n cs
      else match n with
        | 0 => ['\uFFFD']
        | m + 1 => c :: takeUnits m cs

/-- A text of more than `limit` units keeps its first `limit - 3` units, followed by three dots. -/
def cap (limit : Nat) (text : String) : String :=
  if limit < width text then String.ofList (takeUnits (limit - 3) text.toList) ++ "..." else text

end ExprWire.Text
