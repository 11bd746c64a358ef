/-!
# Texts as bytes

Lane patterns, lengths and digests count the bytes of a text's UTF-8 form.
-/

namespace ShaderIL.Text

/-- The UTF-8 bytes of a text. -/
def bytes (s : String) : List UInt8 := s.toList.flatMap String.utf8EncodeChar

end ShaderIL.Text
