import ExprWire.Bytes
/-! UTF-8 in both directions. Reading is strict and drops one leading byte order mark. -/

namespace ExprWire.Text

def utf8 (text : String) : Bytes := text.toUTF8.data.toList

def dropMark (text : String) : String :=
  match text.toList with
  | '\uFEFF' :: cs => String.ofList cs
  | _ => text

/-- The text that well-formed UTF-8 spells, without a leading byte order mark. -/
def ofUtf8? (bytes : Bytes) : Option String :=
  (String.fromUTF8? bytes.toByteArray).map dropMark

theorem fromUTF8?_utf8 (text : String) :
    String.fromUTF8? (utf8 text).toByteArray = some text := by
  have same : (utf8 text).toByteArray = text.toByteArray := by
    apply ByteArray.ext
    rw [List.data_toByteArray, utf8, Array.toArray_toList]
    rfl
  rw [same, String.fromUTF8?, dif_pos text.isValidUTF8]
  rfl

theorem ofUtf8?_utf8 (text : String) : ofUtf8? (utf8 text) = some (dropMark text) := by
  rw [ofUtf8?, fromUTF8?_utf8, Option.map_some]

end ExprWire.Text
