/-!
# Texts as bytes

A text is stored, compared and logged as its bytes in UTF-8.
-/

namespace PeerSubstrate.Text

/-- The bytes of a text in UTF-8. -/
def utf8 (text : String) : List UInt8 := text.toByteArray.data.toList

@[simp] theorem utf8_append (one two : String) : utf8 (one ++ two) = utf8 one ++ utf8 two := by
  simp [utf8]

end PeerSubstrate.Text
