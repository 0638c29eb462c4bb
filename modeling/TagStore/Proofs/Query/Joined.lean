import TagStore.Proofs.Query.Grammar

/-!
# Texts of queries put together

The text of a query is closed towards what follows.  The text of another query behind it adds the
expressions of that one, brackets around it make it a group, and a text that is no query fails
behind it as it does alone, only further to the right.
-/

namespace TagStore
namespace Query

open Search (lookahead)

/-- The error in a text with some characters more in front of it. -/
def ParseError.moved (count : Nat) : ParseError → ParseError
  | unexpected position => unexpected (position + count)
  | inGroup position cause => inGroup (position + count) cause

theorem ParseError.position_moved (count : Nat) (error : ParseError) :
    (error.moved count).position = error.position + count := by
  cases error <;> rfl

theorem ParseError.cause?_moved (count : Nat) (error : ParseError) :
    (error.moved count).cause? = error.cause? := by
  cases error <;> rfl

theorem mapError_map {ε δ α β : Type} (f : ε → δ) (g : α → β) (result : Except ε α) :
    (result.map g).mapError f = (result.mapError f).map g := by
  cases result <;> rfl

/-- What is left of a longer view is read in the same way, errors being further to the right. -/
theorem Lookahead.readView_add {α : Type} (ahead : Lookahead α) {size : Nat} {text : List α}
    (count : Nat) (within : text.length ≤ size) :
    ahead.readView (size + count) text =
      (ahead.readView size text).mapError (·.moved count) := by
  fun_induction ahead.readView size text with
  | case1 size => exact ahead.readView_nil (size + count)
  | case2 size head rest blank induction =>
      rw [ahead.readView_blank _ rest blank]
      exact induction (Nat.le_of_succ_le within)
  | case3 size head rest not_blank none =>
      rw [List.length_cons] at within
      rw [ahead.readView_unexpected _ not_blank none, Nat.sub_add_comm within]
      rfl
  | case4 size head rest not_blank test after found induction =>
      have shorter := ahead.length_readToken_le found
      have later : after.length ≤ size := Nat.le_trans shorter (Nat.le_of_succ_le within)
      rw [ahead.readView_test _ not_blank found, mapError_map, induction later]
  | case5 size head rest not_blank contents after found cause inner =>
      rw [List.length_cons] at within
      rw [ahead.readView_inGroup _ not_blank found inner, Nat.sub_add_comm within]
      rfl
  | case6 size head rest not_blank contents after found exprs inner _ induction =>
      have shorter := ahead.length_readToken_le found
      have later : after.length ≤ size := Nat.le_trans shorter (Nat.le_of_succ_le within)
      rw [ahead.readView_group _ not_blank found inner, mapError_map, induction later]

theorem read_blank {c : Char} (blank : Text.isBlank c) (text : List Char) :
    lookahead.read (c :: text) = (lookahead.read text).mapError (·.moved 1) := by
  rw [Lookahead.read, lookahead.readView_blank _ text blank, List.length_cons]
  exact lookahead.readView_add 1 (Nat.le_refl text.length)

/-- Behind the text of a query, what cannot go on with a test is read as if it stood alone. -/
theorem Writes.read_append {text rest : List Char} {query : Query} (writes : Writes text query)
    (ends : EndsTest rest) :
    lookahead.read (text ++ rest) =
      ((lookahead.read rest).mapError (·.moved text.length)).map (query ++ ·) := by
  have moved := lookahead.readView_add text.length (Nat.le_refl rest.length)
  rw [Lookahead.read, writes.readView_append ends, List.length_append, Nat.add_comm, moved]
  rfl

section Texts

variable {text other : String} {query further : Query} {error : ParseError}

theorem parse_append_of_ok (read : parse text = .ok query) (readOther : parse other = .ok further) :
    parse (text ++ other) = .ok (query ++ further) := by
  rw [parse_eq_ok_iff] at read readOther ⊢
  rw [String.toList_append]
  exact read.append readOther

theorem parse_brackets (read : parse text = .ok query) :
    parse ("[" ++ text ++ "]") = .ok [.group query] := by
  rw [parse_eq_ok_iff] at read ⊢
  simpa using Writes.group read .nil

theorem parse_append_of_error (read : parse text = .ok query)
    (failed : parse other = .error error) :
    parse (text ++ " " ++ other) = .error ((error.moved 1).moved text.length) := by
  have ends : EndsTest (' ' :: other.toList) := .cons (by decide) (by decide) (by decide) _
  have whole : (text ++ " " ++ other).toList = text.toList ++ ' ' :: other.toList := by simp
  rw [parse_eq_ok_iff] at read
  rw [parse_eq_read] at failed ⊢
  rw [whole, read.read_append ends, read_blank (by decide), failed, String.length_toList]
  rfl

end Texts

/-- The text of a query can be followed by that of another one and can be put between brackets.
Behind it and a blank, a text that is no query fails with the same cause at the same character. -/
theorem parse_after_query {text : String} {query : Query} (read : parse text = .ok query) :
    (∀ other further, parse other = .ok further →
      parse (text ++ other) = .ok (query ++ further)) ∧
    parse ("[" ++ text ++ "]") = .ok [.group query] ∧
    ∀ other error, parse other = .error error → ∃ later,
      parse (text ++ " " ++ other) = .error later ∧
        later.position = error.position + text.length + 1 ∧ later.cause? = error.cause? := by
  refine ⟨fun _ _ => parse_append_of_ok read, parse_brackets read, fun other error failed => ?_⟩
  refine ⟨_, parse_append_of_error read failed, ?_, ?_⟩
  · rw [ParseError.position_moved, ParseError.position_moved, Nat.add_right_comm]
  · rw [ParseError.cause?_moved, ParseError.cause?_moved]

/-- A bracket in a value does not close the group around it, nor does it count for what follows. -/
theorem parse_after_bracket :
    let query : Query := [.test ⟨.required, ["a"], some "]"⟩]
    parse "+a:\"]\"" = .ok query ∧ parse "-b" = .ok [.test ⟨.excluded, ["b"], none⟩] ∧
      parse ("+a:\"]\"" ++ "-b") = .ok (query ++ [.test ⟨.excluded, ["b"], none⟩]) ∧
      parse ("[" ++ "+a:\"]\"" ++ "]") = .ok [.group query] ∧
      parse "[-b ~]" = .error (.inGroup 0 (.unexpected 3)) ∧
      ∃ error, parse ("+a:\"]\"" ++ " " ++ "[-b ~]") = .error error ∧ error.position = 7 ∧
        error.cause? = some (.unexpected 3) := by
  intro query
  have read : parse "+a:\"]\"" = .ok query := by decide +kernel
  have other : parse "-b" = .ok [.test ⟨.excluded, ["b"], none⟩] := by decide +kernel
  have failed : parse "[-b ~]" = .error (.inGroup 0 (.unexpected 3)) := by decide +kernel
  obtain ⟨joined, grouped, later⟩ := parse_after_query read
  exact ⟨read, other, joined _ _ other, grouped, failed, later _ _ failed⟩

end Query
end TagStore
