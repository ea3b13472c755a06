import Quorum.Basic

set_option autoImplicit false

/-! # Text as bytes

Commands and files hold bytes; where they are meant as text, the encoding is UTF-8. The two
directions undo each other: every text is read back from its bytes, and bytes that can be read as
a text are the bytes of that text. -/

namespace Quorum

/-- The UTF-8 encoding of a text. -/
def utf8 (text : String) : Bytes := text.toByteArray.data.toList

/-- The text that some bytes encode, if they are valid UTF-8. -/
def Bytes.text? (bytes : Bytes) : Option String := String.fromUTF8? ⟨bytes.toArray⟩

theorem Bytes.text?_eq_some_iff (bytes : Bytes) (text : String) :
    Bytes.text? bytes = some text ↔ bytes = utf8 text := by
  unfold Bytes.text? String.fromUTF8? utf8
  constructor
  · intro h
    split at h
    · obtain rfl := Option.some.inj h
      simp [String.fromUTF8]
    · simp at h
  · intro h
    subst h
    have valid : (⟨text.toByteArray.data.toList.toArray⟩ : ByteArray).IsValidUTF8 := by
      simpa using text.isValidUTF8
    rw [dif_pos valid]
    simp [String.fromUTF8]

/-- A text is read back from its encoding. -/
@[simp]
theorem text?_utf8 (text : String) : Bytes.text? (utf8 text) = some text :=
  (Bytes.text?_eq_some_iff ..).2 rfl

end Quorum
