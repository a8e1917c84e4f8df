import Islands.Text.Span

/-!
# The bytes of a text

* `utf8Bytes`: the UTF-8 form of a text; `length_utf8Bytes` says that `byteLength` is its length.
* `textOfBytes?`: the text whose UTF-8 form some bytes are.
-/

namespace Islands

/-- The UTF-8 form of a text. -/
def utf8Bytes (cs : List Char) : List UInt8 := cs.flatMap String.utf8EncodeChar

@[simp] theorem utf8Bytes_append (a b : List Char) :
    utf8Bytes (a ++ b) = utf8Bytes a ++ utf8Bytes b := by simp [utf8Bytes]

@[simp] theorem length_utf8Bytes (cs : List Char) : (utf8Bytes cs).length = byteLength cs := by
  induction cs with
  | nil => rfl
  | cons c cs ih =>
    rw [byteLength_cons, ← ih]
    simp [utf8Bytes]

/-- The text that some bytes are the UTF-8 form of, if they are one. -/
def textOfBytes? (bytes : List UInt8) : Option (List Char) :=
  (String.fromUTF8? ⟨bytes.toArray⟩).map String.toList

end Islands
