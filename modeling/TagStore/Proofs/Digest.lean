import TagStore.Digest
import TagStore.Proofs.Links.Path

/-!
# Digests as names

A digest is a word, so it can name a file.
-/

namespace TagStore

theorem isWordChar_hexDigit : ∀ digit < 16, Text.isWordChar (Text.hexDigit digit) := by decide

theorem isWordChar_of_mem_hexByte {byte : UInt8} {c : Char} (member : c ∈ Digest.hexByte byte) :
    Text.isWordChar c := by
  have := byte.toNat_lt
  simp only [Digest.hexByte, List.mem_cons, List.not_mem_nil, or_false] at member
  rcases member with rfl | rfl
  · exact isWordChar_hexDigit _ (by omega)
  · exact isWordChar_hexDigit _ (by omega)

/-- A digest is a word. -/
theorem isWord_digest (bytes : ByteArray) : Tag.Edit.isWord (digest bytes) := by
  rw [Tag.Edit.isWord, Bool.and_eq_true, decide_eq_true_eq, List.all_eq_true]
  constructor
  · intro empty
    have letters := congrArg String.toList empty
    rw [digest, String.toList_ofList] at letters
    simp [Digest.State.words, Digest.bigEndian, Digest.hexByte, List.range_succ] at letters
  · intro c member
    rw [digest, String.toList_ofList] at member
    obtain ⟨byte, _, member⟩ := List.mem_flatMap.mp member
    exact isWordChar_of_mem_hexByte member

theorem length_digest (bytes : ByteArray) : (digest bytes).length = 64 := by
  rw [digest, String.length_ofList]
  simp [Digest.State.words, Digest.bigEndian, Digest.hexByte, List.range_succ]

theorem isName_digest (bytes : ByteArray) : Location.IsName (digest bytes) :=
  isName_of_isWord (isWord_digest bytes)

end TagStore
