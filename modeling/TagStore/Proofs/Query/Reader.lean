import TagStore.Proofs.Text.Chars
import TagStore.Query.Search

/-!
# Laws of reading

The equations of the reader, one for each thing that a view may begin with, and what the reading of
words and paths has to do with the characters alone.
-/

namespace TagStore
namespace Query

theorem Kind.eq_sign_of_ofSign? {c : Char} {kind : Kind} (sign : ofSign? c = some kind) :
    c = kind.sign := by
  unfold ofSign? at sign
  split at sign
  · cases sign
    rfl
  · cases sign
    rfl
  · cases sign
    rfl
  · cases sign

theorem map_eq_ok_iff {ε α β : Type} {f : α → β} {result : Except ε α} {b : β} :
    result.map f = .ok b ↔ ∃ a, result = .ok a ∧ f a = b := by
  cases result with
  | error error => simp [Except.map]
  | ok a => simp [Except.map]

namespace Lookahead

variable {α : Type} (ahead : Lookahead α)

theorem readView_nil (size : Nat) : ahead.readView size [] = .ok [] := by
  rw [readView]

theorem readView_blank (size : Nat) {head : α} (rest : List α)
    (blank : Text.isBlank (ahead.char head)) :
    ahead.readView size (head :: rest) = ahead.readView size rest := by
  rw [readView, if_pos blank]

theorem readView_unexpected (size : Nat) {head : α} {rest : List α}
    (not_blank : ¬Text.isBlank (ahead.char head)) (none : ahead.readToken head rest = none) :
    ahead.readView size (head :: rest) = .error (.unexpected (size - (rest.length + 1))) := by
  rw [readView, if_neg not_blank]
  split
  · rfl
  all_goals simp_all

theorem readView_test (size : Nat) {head : α} {rest after : List α} {test : TagTest}
    (not_blank : ¬Text.isBlank (ahead.char head))
    (read : ahead.readToken head rest = some (.test test, after)) :
    ahead.readView size (head :: rest) = (ahead.readView size after).map (.test test :: ·) := by
  rw [readView, if_neg not_blank]
  split <;> simp_all

theorem readView_group (size : Nat) {head : α} {rest contents after : List α} {exprs : Query}
    (not_blank : ¬Text.isBlank (ahead.char head))
    (read : ahead.readToken head rest = some (.group contents, after))
    (inner : ahead.read contents = .ok exprs) :
    ahead.readView size (head :: rest) = (ahead.readView size after).map (.group exprs :: ·) := by
  rw [Lookahead.read] at inner
  rw [readView, if_neg not_blank]
  split <;> simp_all

theorem readView_inGroup (size : Nat) {head : α} {rest contents after : List α}
    {cause : ParseError} (not_blank : ¬Text.isBlank (ahead.char head))
    (read : ahead.readToken head rest = some (.group contents, after))
    (inner : ahead.read contents = .error cause) :
    ahead.readView size (head :: rest) =
      .error (.inGroup (size - (rest.length + 1)) cause) := by
  rw [Lookahead.read] at inner
  rw [readView, if_neg not_blank]
  split <;> simp_all

/-- A group goes up to the bracket that closes it. -/
theorem exists_of_readToken_group {head : α} {rest contents after : List α}
    (read : ahead.readToken head rest = some (.group contents, after)) :
    ahead.char head = '[' ∧ ∃ size closing, ahead.inside head rest = some size ∧
      contents = rest.take size ∧ rest.drop size = closing :: after := by
  rw [readToken] at read
  split at read
  · rename_i opens
    obtain ⟨size, marked, found⟩ := Option.bind_eq_some_iff.mp read
    split at found
    · cases found
    · rename_i closing tail split
      cases found
      exact ⟨opens, size, closing, marked, rfl, split⟩
  · obtain ⟨kind, _, found⟩ := Option.bind_eq_some_iff.mp read
    obtain ⟨⟨_, _⟩, _, same⟩ := Option.map_eq_some_iff.mp found
    cases same

/-! ## What is left

What is left of a text after something has been read is the end of the text. -/

theorem suffix_of_readQuoted {text after : List α} {value : String}
    (read : ahead.readQuoted text = some (value, after)) : after <:+ text := by
  match text with
  | [] => cases read
  | [_] => cases read
  | front :: first :: rest =>
      rw [readQuoted] at read
      split at read
      · obtain ⟨size, _, found⟩ := Option.bind_eq_some_iff.mp read
        split at found
        · cases found
        · rename_i closing tail split
          cases found
          have tail_suffix : after <:+ rest.drop size := split ▸ List.suffix_cons closing after
          exact (tail_suffix.trans (List.drop_suffix size rest)).trans ⟨[front, first], rfl⟩
      · cases read

theorem suffix_of_readValue {text after : List α} {value : String}
    (read : ahead.readValue text = some (value, after)) : after <:+ text := by
  cases text with
  | nil => cases read
  | cons colon rest =>
      refine List.IsSuffix.trans ?_ (List.suffix_cons colon rest)
      rw [readValue] at read
      split at read
      · split at read
        · cases read
          exact List.dropWhile_suffix _
        · exact ahead.suffix_of_readQuoted read
      · cases read

theorem suffix_of_readTest {kind : Kind} {text after : List α} {test : TagTest}
    (read : ahead.readTest kind text = some (test, after)) : after <:+ text := by
  have path_suffix : ahead.afterPath text <:+ text := List.drop_suffix _ _
  rw [readTest] at read
  split at read
  · split at read
    · rename_i value tail found
      cases read
      exact (ahead.suffix_of_readValue found).trans path_suffix
    · cases read
      exact path_suffix
  · cases read

theorem suffix_of_readToken {head : α} {rest after : List α} {token : Token α}
    (read : ahead.readToken head rest = some (token, after)) : after <:+ head :: rest := by
  refine List.IsSuffix.trans ?_ (List.suffix_cons head rest)
  rw [readToken] at read
  split at read
  · obtain ⟨size, _, found⟩ := Option.bind_eq_some_iff.mp read
    split at found
    · cases found
    · rename_i closing tail split
      cases found
      exact (split ▸ List.suffix_cons closing after : after <:+ rest.drop size).trans
        (List.drop_suffix size rest)
  · obtain ⟨kind, _, found⟩ := Option.bind_eq_some_iff.mp read
    obtain ⟨⟨test, tail⟩, whole, same⟩ := Option.map_eq_some_iff.mp found
    cases same
    exact ahead.suffix_of_readTest whole

/-! ## Words and paths -/

section Paths

variable {text rest : List α}

theorem word_append_afterWord (text : List α) : ahead.word text ++ ahead.afterWord text = text :=
  List.takeWhile_append_dropWhile

theorem isWordChar_of_mem_word {a : α} (member : a ∈ ahead.word text) :
    Text.isWordChar (ahead.char a) :=
  List.all_eq_true.mp List.all_takeWhile a member

theorem word_eq_nil_iff : ahead.word text = [] ↔ ahead.startsWord text = false := by
  cases text with
  | nil => exact iff_of_true rfl rfl
  | cons head rest => simp [word, startsWord, List.takeWhile_cons]

/-- A longest word is not followed by a word character. -/
theorem startsWord_afterWord (text : List α) : ahead.startsWord (ahead.afterWord text) = false := by
  cases after : ahead.afterWord text with
  | nil => rfl
  | cons head rest =>
      have nonempty : ahead.afterWord text ≠ [] := after ▸ List.cons_ne_nil head rest
      have stops := List.head_dropWhile_not _ nonempty
      simp only [show List.dropWhile _ text = head :: rest from after, List.head_cons] at stops
      exact stops

theorem pathLength_word_append {word : List α}
    (isWord : ∀ a ∈ word, Text.isWordChar (ahead.char a)) (rest : List α) :
    ahead.pathLength (word ++ rest) = word.length + ahead.pathLength rest := by
  induction word with
  | nil => simp
  | cons head tail induction =>
      obtain ⟨here, later⟩ := List.forall_mem_cons.mp isWord
      rw [List.cons_append, pathLength, if_pos (Bool.or_eq_true_iff.mpr (.inl here)),
        induction later, List.length_cons]
      omega

theorem pathLength_eq (text : List α) :
    ahead.pathLength text =
      (ahead.word text).length + ahead.pathLength (ahead.afterWord text) := by
  have isWord : ∀ a ∈ ahead.word text, Text.isWordChar (ahead.char a) :=
    fun _ => ahead.isWordChar_of_mem_word
  have whole := ahead.pathLength_word_append isWord (ahead.afterWord text)
  rwa [word_append_afterWord] at whole

/-- What begins a text as a path is its first word and what goes on with a path behind that. -/
theorem take_pathLength (text : List α) :
    text.take (ahead.pathLength text) = ahead.word text ++
      (ahead.afterWord text).take (ahead.pathLength (ahead.afterWord text)) := by
  have taken : (ahead.word text ++ ahead.afterWord text).take ((ahead.word text).length + _) = _ :=
    List.take_length_add_append (ahead.pathLength (ahead.afterWord text))
  rwa [word_append_afterWord, ← pathLength_eq] at taken

theorem afterPath_afterWord (text : List α) :
    ahead.afterPath (ahead.afterWord text) = ahead.afterPath text := by
  have left : (ahead.word text ++ ahead.afterWord text).drop ((ahead.word text).length + _) = _ :=
    List.drop_length_add_append (ahead.pathLength (ahead.afterWord text))
  rw [word_append_afterWord, ← pathLength_eq] at left
  exact left.symm

theorem dot_not_mem_word (text : List α) : '.' ∉ (ahead.word text).map ahead.char := by
  intro member
  obtain ⟨a, listed, isDot⟩ := List.mem_map.mp member
  have isWord := ahead.isWordChar_of_mem_word listed
  rw [isDot] at isWord
  exact absurd isWord (by decide)

/-- A path goes on behind a dot if a word begins there. -/
theorem path_dot {dot : α} (after : ahead.afterWord text = dot :: rest)
    (isDot : ahead.char dot = '.') (starts : ahead.startsWord rest) :
    ahead.path text = ahead.spell (ahead.word text) :: ahead.path rest ∧
      ahead.afterPath text = ahead.afterPath rest := by
  have longer : ahead.pathLength (dot :: rest) = ahead.pathLength rest + 1 :=
    if_pos (Bool.or_eq_true_iff.mpr (.inr (by rw [isDot, starts]; rfl)))
  constructor
  · rw [path, take_pathLength, after, longer, List.take_succ_cons, spell, List.map_append,
      List.map_cons, isDot, Text.pieces_append (ahead.dot_not_mem_word text)]
    rfl
  · rw [← afterPath_afterWord, after, afterPath, longer, List.drop_succ_cons]
    rfl

/-- A path ends with a word if no dot and word follow. -/
theorem path_word
    (ends : ∀ dot rest, ahead.afterWord text = dot :: rest → ahead.char dot = '.' →
      ahead.startsWord rest = false) :
    ahead.path text = [ahead.spell (ahead.word text)] ∧
      ahead.afterPath text = ahead.afterWord text := by
  have none : ahead.pathLength (ahead.afterWord text) = 0 := by
    cases after : ahead.afterWord text with
    | nil => rfl
    | cons dot rest =>
        have other := ahead.startsWord_afterWord text
        rw [after] at other
        refine if_neg fun inPath => ?_
        rcases Bool.or_eq_true_iff.mp inPath with word | dotted
        · exact Bool.false_ne_true (other.symm.trans word)
        · obtain ⟨isDot, starts⟩ := Bool.and_eq_true_iff.mp dotted
          exact Bool.false_ne_true ((ends dot rest after (eq_of_beq isDot)).symm.trans starts)
  constructor
  · rw [path, take_pathLength, none, List.take_zero, List.append_nil, spell,
      Text.pieces_of_not_mem (ahead.dot_not_mem_word text)]
  · rw [← afterPath_afterWord, afterPath, none, List.drop_zero]

/-- Behind the first word, a path goes on or ends. -/
theorem path_cases (text : List α) :
    (∃ dot rest, ahead.afterWord text = dot :: rest ∧ ahead.char dot = '.' ∧
        ahead.startsWord rest = true ∧
        ahead.path text = ahead.spell (ahead.word text) :: ahead.path rest ∧
        ahead.afterPath text = ahead.afterPath rest) ∨
      (∀ dot rest, ahead.afterWord text = dot :: rest → ahead.char dot = '.' →
        ahead.startsWord rest = false) ∧
        ahead.path text = [ahead.spell (ahead.word text)] ∧
        ahead.afterPath text = ahead.afterWord text := by
  by_cases goesOn : ∃ dot rest, ahead.afterWord text = dot :: rest ∧ ahead.char dot = '.' ∧
      ahead.startsWord rest = true
  · obtain ⟨dot, rest, after, isDot, starts⟩ := goesOn
    exact .inl ⟨dot, rest, after, isDot, starts, ahead.path_dot after isDot starts⟩
  · have ends : ∀ dot rest, ahead.afterWord text = dot :: rest → ahead.char dot = '.' →
        ahead.startsWord rest = false := by
      intro dot rest after isDot
      rw [← Bool.not_eq_true]
      exact fun starts => goesOn ⟨dot, rest, after, isDot, starts⟩
    exact .inr ⟨ends, ahead.path_word ends⟩

theorem path_eq_cons (text : List α) :
    ahead.path text = ahead.spell (ahead.word text) :: (ahead.path text).tail := by
  rcases ahead.path_cases text with ⟨_, _, _, _, _, path, _⟩ | ⟨_, path, _⟩
  · rw [path, List.tail_cons]
  · rw [path, List.tail_cons]

end Paths

/-! ## Characters

What is read of words and paths depends on the characters alone, whatever carries these. -/

variable {ahead} {β : Type} {other : Lookahead β} {f : α → β}

theorem startsWord_map (same : ∀ a, other.char (f a) = ahead.char a) (text : List α) :
    other.startsWord (text.map f) = ahead.startsWord text := by
  cases text with
  | nil => rfl
  | cons head rest => simp [startsWord, same]

theorem spell_map (same : ∀ a, other.char (f a) = ahead.char a) (text : List α) :
    other.spell (text.map f) = ahead.spell text := by
  rw [spell, spell, List.map_map]
  congr 1
  exact List.map_congr_left fun a _ => same a

theorem pathLength_map (same : ∀ a, other.char (f a) = ahead.char a) (text : List α) :
    other.pathLength (text.map f) = ahead.pathLength text := by
  induction text with
  | nil => rfl
  | cons head rest induction =>
      simp only [List.map_cons, pathLength, induction, startsWord_map same, same]

theorem path_map (same : ∀ a, other.char (f a) = ahead.char a) (text : List α) :
    other.path (text.map f) = ahead.path text := by
  rw [path, path, pathLength_map same, ← List.map_take, spell_map same]

theorem afterPath_map (same : ∀ a, other.char (f a) = ahead.char a) (text : List α) :
    other.afterPath (text.map f) = (ahead.afterPath text).map f := by
  rw [afterPath, afterPath, pathLength_map same, List.map_drop]

theorem word_map (same : ∀ a, other.char (f a) = ahead.char a) (text : List α) :
    other.word (text.map f) = (ahead.word text).map f := by
  rw [word, word, List.takeWhile_map]
  congr 2
  funext a
  simp [same]

theorem afterWord_map (same : ∀ a, other.char (f a) = ahead.char a) (text : List α) :
    other.afterWord (text.map f) = (ahead.afterWord text).map f := by
  rw [afterWord, afterWord, List.dropWhile_map]
  congr 2
  funext a
  simp [same]

end Lookahead

end Query
end TagStore
