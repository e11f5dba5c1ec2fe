/-
# OmarchyPool.Lib.Utf8 -- a text and its bytes

The bytes of a text, and the text of a string of bytes when it has one: a text is that of its bytes
(`decode_encode`).
-/
import Mathlib.Data.List.Basic

namespace OmarchyPool.Lib.Utf8

set_option autoImplicit false

def encode (s : List Char) : List UInt8 := s.flatMap String.utf8EncodeChar

/-- The text these are the bytes of. -/
def decode (b : List UInt8) : Option (List Char) := b.toByteArray.utf8Decode?.map Array.toList

theorem toByteArray_encode (s : List Char) : (encode s).toByteArray = s.utf8Encode := rfl

theorem decode_encode (s : List Char) : decode (encode s) = some s := by
  rw [decode, toByteArray_encode, List.utf8Decode?_utf8Encode]
  rfl

end OmarchyPool.Lib.Utf8
