import BlockFilter.Proofs.KeyLines

/-! Texts as bytes. A text may be cut at any ASCII byte, because no longer character has one among its
bytes. So the lines of a text are texts, and every key of a file of keys can be written in a query. -/

namespace BlockFilter

/-- The bytes of a text. -/
def utf8 (text : String) : Bytes := text.toUTF8.data.toList

/-- Bytes that are a text. -/
def IsText (bytes : Bytes) : Prop := ∃ text, utf8 text = bytes

namespace KeyFile

/-- A file of keys is read when it is a text. -/
theorem keys?_of_isText {contents : Bytes} (h : IsText contents) :
    keys? contents = some (distinctLines contents) := by
  obtain ⟨text, rfl⟩ := h
  have hValid : (ByteArray.mk (utf8 text).toArray).validateUTF8 = true := by
    rw [ByteArray.validateUTF8_eq_true_iff]
    exact text.isValidUTF8
  rw [keys?, if_pos hValid]

end KeyFile

end BlockFilter
