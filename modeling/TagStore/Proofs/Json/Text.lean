import TagStore.Json.Printer
import TagStore.Json.Reader

/-!
# Written texts are read back

A character is read back from its written form, whether it was escaped or not, and a text between
quotes gives its characters up to the closing quote.
-/

namespace TagStore
namespace Json

theorem mem_of_lookup_eq_some {c letter : Char} {letters : List (Char × Char)}
    (found : letters.lookup c = some letter) : (c, letter) ∈ letters := by
  induction letters with
  | nil => cases found
  | cons head rest induction =>
      rw [List.lookup_cons] at found
      split at found
      · rename_i same
        cases found
        rw [eq_of_beq same]
        exact List.mem_cons_self
      · exact List.mem_cons_of_mem _ (induction found)

theorem unescapeLetters_lookup :
    ∀ pair ∈ escapeLetters, unescapeLetters.lookup pair.2 = some pair.1 ∧ pair.2 ≠ 'u' := by
  decide

/-! ## Hexadecimal digits -/

theorem hexValue?_hexDigit :
    ∀ digit < 16, hexValue? (.char (Text.hexDigit digit)) = some digit := by
  decide

theorem hexUnit_control {code : Nat} (small : code < 256) (rest : List Symbol) :
    hexUnit (.char '0' :: .char '0' :: .char (Text.hexDigit (code / 16)) ::
      .char (Text.hexDigit (code % 16)) :: rest) = .ok (code, rest) := by
  have zero := hexValue?_hexDigit 0 (by omega)
  have high := hexValue?_hexDigit (code / 16) (by omega)
  have low := hexValue?_hexDigit (code % 16) (by omega)
  rw [show Text.hexDigit 0 = '0' by decide] at zero
  simp only [hexUnit, zero, high, low]
  rw [show ((0 * 16 + 0) * 16 + code / 16) * 16 + code % 16 = code by omega]

/-! ## Characters -/

theorem piece_escaped {strict : Bool} {text rest : List Symbol} {read : Piece}
    (found : escaped strict text = .ok (read, rest)) :
    piece strict (.char '\\' :: text) = .ok (some read, rest) := by
  simp [piece, found, Except.map]

/-- A written character is read as one piece. -/
theorem piece_escape (c : Char) (rest : List Symbol) :
    piece true ((escape c).map Symbol.char ++ rest) = .ok (some (.char c), rest) := by
  cases letter : escapeLetters.lookup c with
  | some d =>
      obtain ⟨back, other⟩ := unescapeLetters_lookup (c, d) (mem_of_lookup_eq_some letter)
      have written : escape c = ['\\', d] := by simp only [escape, letter]
      rw [written]
      apply piece_escaped
      simp [escaped, back]
  | none =>
      by_cases control : c.toNat < 0x20
      · have written : escape c = ['\\', 'u', '0', '0', Text.hexDigit (c.toNat / 16),
            Text.hexDigit (c.toNat % 16)] := by simp only [escape, letter, if_pos control]
        have unit := hexUnit_control (show c.toNat < 256 by omega) rest
        have small : c.toNat < 0xD800 ∨ 0xDFFF < c.toNat := by omega
        rw [written]
        apply piece_escaped
        simp [escaped, unit, small]
      · have written : escape c = [c] := by simp only [escape, letter, if_neg control]
        have not_quote : c ≠ '"' := by
          rintro rfl
          cases letter
        have not_backslash : c ≠ '\\' := by
          rintro rfl
          cases letter
        simp [written, piece, not_quote, not_backslash, control]

/-! ## Texts -/

theorem pieces_cons {strict : Bool} {text rest : List Symbol} {first : Piece}
    (found : piece strict text = .ok (some first, rest)) :
    pieces strict text = (pieces strict rest).map fun (later, rest) => (first :: later, rest) := by
  rw [pieces]
  split
  · rename_i flaw
    rw [found] at flaw
    cases flaw
  · rename_i closed
    rw [found] at closed
    cases closed
  · rename_i same
    rw [found] at same
    cases same
    rfl

theorem pieces_quote (strict : Bool) (rest : List Symbol) :
    pieces strict (.char '"' :: rest) = .ok ([], rest) := by
  rw [pieces]
  rfl

theorem pieces_escape (text : List Char) (rest : List Symbol) :
    pieces true ((text.flatMap escape).map .char ++ .char '"' :: rest) =
      .ok (text.map .char, rest) := by
  induction text with
  | nil => exact pieces_quote true rest
  | cons c later induction =>
      rw [List.flatMap_cons, List.map_append, List.append_assoc, pieces_cons (piece_escape c _),
        induction]
      rfl

theorem characters?_map_char (text : List Char) : characters? (text.map .char) = some text := by
  induction text with
  | nil => rfl
  | cons c later induction => simp [characters?, induction]

/-- The rest of a written text is read as the text. -/
theorem contents_escape (text : String) (rest : List Symbol) :
    Reader.contents true ((text.toList.flatMap escape).map .char ++ .char '"' :: rest) =
      .ok (text, rest) := by
  simp only [Reader.contents, pieces_escape, characters?_map_char, String.ofList_toList]

theorem toList_quoted (text : String) :
    (quoted text).toList = '"' :: (text.toList.flatMap escape ++ ['"']) := by
  simp [quoted]

end Json
end TagStore
