import TagStore.Text.Symbol

/-!
# Encoded texts as symbols

The bytes of a text are read as the characters of the text, none of them stray.
-/

namespace TagStore
namespace Symbol

theorem size_utf8Encode_singleton (c : Char) : [c].utf8Encode.size = c.utf8Size := by
  rw [List.utf8Encode_singleton, List.size_toByteArray, String.length_utf8EncodeChar]

theorem utf8DecodeChar?_utf8Encode_append (before : List Char) (c : Char) (after : List Char) :
    (before ++ c :: after).utf8Encode.utf8DecodeChar? before.utf8Encode.size = some c := by
  rw [ByteArray.utf8DecodeChar?_eq_utf8DecodeChar?_extract, List.utf8Encode_append,
    ByteArray.extract_append_eq_right rfl (ByteArray.size_append),
    List.utf8DecodeChar?_utf8Encode_cons]

theorem ofBytesFrom_utf8Encode_append (before after : List Char) :
    ofBytesFrom (before ++ after).utf8Encode before.utf8Encode.size = after.map char := by
  induction after generalizing before with
  | nil => simp [ofBytesFrom]
  | cons c rest induction =>
      have inside : before.utf8Encode.size < (before ++ c :: rest).utf8Encode.size := by
        have := c.utf8Size_pos
        rw [List.utf8Encode_append, ByteArray.size_append, List.utf8Encode_cons,
          ByteArray.size_append, size_utf8Encode_singleton]
        omega
      have further : before.utf8Encode.size + c.utf8Size = (before ++ [c]).utf8Encode.size := by
        rw [List.utf8Encode_append, ByteArray.size_append, size_utf8Encode_singleton]
      have later := induction (before ++ [c])
      rw [List.append_assoc, List.singleton_append] at later
      rw [ofBytesFrom, dif_pos inside, utf8DecodeChar?_utf8Encode_append]
      simp only [List.map_cons]
      rw [further, later]

/-- An encoded text is read as its characters. -/
@[simp]
theorem ofBytes_toUTF8 (text : String) : ofBytes text.toUTF8 = text.toList.map char := by
  rw [String.toUTF8_eq_toByteArray, ← String.utf8Encode_toList]
  exact ofBytesFrom_utf8Encode_append [] text.toList

end Symbol
end TagStore
