import TagStore.Proofs.Tag.Plain
import Mathlib.Computability.Language

/-!
# Edits and their texts

An edit is read from its written form and from no other text, provided that its segments are words
and its value is a line.  The texts that are read are those of a regular expression: a sign, words
with dots between them, and perhaps a colon and a line.
-/

namespace TagStore
namespace Tag
namespace Edit

open scoped Computability

/-! ## Reading what is written -/

section Reading

variable {text : String} {tag : Tag} {edit : Edit}

theorem isEditable_of_isWellFormed (wellFormed : tag.IsWellFormed) : isEditable tag := by
  rw [isEditable, Bool.and_eq_true, List.all_eq_true, Option.all_eq_true]
  exact ⟨wellFormed.segments, wellFormed.value⟩

theorem tagOfText?_eq_some_iff :
    tagOfText? text = some tag ↔ tag.IsWellFormed ∧ tag.toText = text := by
  constructor
  · intro read
    refine ⟨isWellFormed_of_tagOfText? read, ?_⟩
    simp only [tagOfText?, Option.ite_none_right_eq_some, Option.some.injEq] at read
    rw [← read.2, toText_ofText]
  · rintro ⟨wellFormed, rfl⟩
    have same : Tag.ofText tag.toText = tag := wellFormed.isPlain
    simp only [tagOfText?, same, if_pos (isEditable_of_isWellFormed wellFormed)]

theorem ofText?_sign (action : Action) (rest : String) :
    ofText? (String.singleton action.sign ++ rest) = (tagOfText? rest).map (⟨action, ·⟩) := by
  have letters : (String.singleton action.sign ++ rest).toList = action.sign :: rest.toList := by
    simp
  rw [ofText?, letters]
  cases action <;> exact congrArg (Option.map _ <| tagOfText? ·) String.ofList_toList

/-- What is read begins with the sign of the edit, and its tag is read from the rest. -/
theorem exists_of_ofText? (read : ofText? text = some edit) :
    ∃ rest, text = String.singleton edit.action.sign ++ rest ∧ tagOfText? rest = some edit.tag := by
  have split {sign : Char} {rest : List Char} (letters : text.toList = sign :: rest) :
      text = String.singleton sign ++ String.ofList rest := by simp [← String.toList_inj, letters]
  rw [ofText?] at read
  split at read
  · rename_i letters
    obtain ⟨tag, found, rfl⟩ := Option.map_eq_some_iff.mp read
    exact ⟨_, split letters, found⟩
  · rename_i letters
    obtain ⟨tag, found, rfl⟩ := Option.map_eq_some_iff.mp read
    exact ⟨_, split letters, found⟩
  · cases read

theorem ofText?_eq_some_iff :
    ofText? text = some edit ↔ edit.tag.IsWellFormed ∧ edit.toText = text := by
  constructor
  · intro read
    obtain ⟨rest, rfl, found⟩ := exists_of_ofText? read
    obtain ⟨wellFormed, written⟩ := tagOfText?_eq_some_iff.mp found
    exact ⟨wellFormed, by rw [toText, written]⟩
  · rintro ⟨wellFormed, rfl⟩
    rw [toText, ofText?_sign, tagOfText?_eq_some_iff.mpr ⟨wellFormed, rfl⟩, Option.map_some]

end Reading

/-! ## The regular expression

The expression is `^([+-])([A-Za-z0-9_]+(?:\.[A-Za-z0-9_]+)*)(?::(.+))?$`, with a group each for the
sign, the path and the value. -/

/-- The texts of one or more word characters. -/
def wordLanguage : Language Char := {text | text ≠ [] ∧ ∀ c ∈ text, Text.isWordChar c}

/-- The texts of a word and any number of dots with a word behind each. -/
def pathLanguage : Language Char := wordLanguage * (({['.']} : Language Char) * wordLanguage)∗

/-- The texts of one or more characters other than a line feed. -/
def lineLanguage : Language Char := {text | text ≠ [] ∧ '\n' ∉ text}

/-- What the groups of the expression capture in a text that matches it. -/
inductive Captures : List Char → Action → List Char → Option (List Char) → Prop
  /-- A sign and a path. -/
  | path (action : Action) {path : List Char} : path ∈ pathLanguage →
      Captures (action.sign :: path) action path none
  /-- A sign, a path, a colon and a value. -/
  | value (action : Action) {path value : List Char} : path ∈ pathLanguage →
      value ∈ lineLanguage →
        Captures (action.sign :: (path ++ ':' :: value)) action path (some value)

section Pattern

variable {word rest value : List Char} {parts : List String}

theorem isWord_iff {word : String} : isWord word ↔ word.toList ∈ wordLanguage := by
  rw [isWord, Bool.and_eq_true, decide_eq_true_eq, List.all_eq_true, ← String.toList_eq_nil_iff.ne]
  rfl

theorem isValue_iff {value : String} : isValue value ↔ value.toList ∈ lineLanguage := by
  rw [isValue, Bool.and_eq_true, decide_eq_true_eq, List.all_eq_true, ← String.toList_eq_nil_iff.ne]
  simp only [decide_eq_true_eq]
  exact and_congr_right fun _ => List.forall_mem_ne'

theorem mem_pathLanguage_of_word (isWord : word ∈ wordLanguage) : word ∈ pathLanguage :=
  ⟨word, isWord, [], Language.nil_mem_kstar _, List.append_nil word⟩

theorem mem_pathLanguage_dot (isWord : word ∈ wordLanguage) (isPath : rest ∈ pathLanguage) :
    word ++ '.' :: rest ∈ pathLanguage := by
  obtain ⟨first, isFirst, _, later, rfl⟩ := Language.mem_mul.mp isPath
  obtain ⟨further, rfl, each⟩ := Language.mem_kstar.mp later
  refine ⟨word, isWord, _, ⟨('.' :: first) :: further, rfl, ?_⟩, by simp⟩
  exact List.forall_mem_cons.mpr ⟨⟨['.'], rfl, first, isFirst, rfl⟩, each⟩

theorem intercalate_mem_pathLanguage (nonempty : parts ≠ []) (words : ∀ part ∈ parts, isWord part) :
    (".".intercalate parts).toList ∈ pathLanguage := by
  induction parts with
  | nil => exact absurd rfl nonempty
  | cons part rest induction =>
      obtain ⟨first, later⟩ := List.forall_mem_cons.mp words
      rw [isWord_iff] at first
      cases rest with
      | nil =>
          rw [String.intercalate_singleton]
          exact mem_pathLanguage_of_word first
      | cons next rest =>
          have longer := mem_pathLanguage_dot first (induction (List.cons_ne_nil _ _) later)
          simpa [String.intercalate_cons_cons] using longer

theorem not_mem_of_mem_wordLanguage (isWord : word ∈ wordLanguage) {c : Char}
    (outside : ¬Text.isWordChar c) : c ∉ word :=
  fun member => outside (isWord.2 c member)

theorem isWord_of_mem_pathLanguage (isPath : rest ∈ pathLanguage) :
    ∀ part ∈ Text.pieces '.' (String.ofList rest), isWord part := by
  obtain ⟨word, first, _, later, rfl⟩ := Language.mem_mul.mp isPath
  obtain ⟨further, rfl, each⟩ := Language.mem_kstar.mp later
  clear isPath later
  induction further generalizing word with
  | nil =>
      have absent := not_mem_of_mem_wordLanguage first (c := '.') (by decide)
      have single : word ++ [].flatten = word := List.append_nil word
      rw [single, Text.pieces_of_not_mem absent, List.forall_mem_singleton, isWord_iff,
        String.toList_ofList]
      exact first
  | cons head further induction =>
      have absent := not_mem_of_mem_wordLanguage first (c := '.') (by decide)
      obtain ⟨here, later⟩ := List.forall_mem_cons.mp each
      obtain ⟨_, rfl, next, isNext, rfl⟩ := Language.mem_mul.mp here
      have whole : word ++ ((['.'] ++ next) :: further).flatten =
          word ++ '.' :: (next ++ further.flatten) := by simp
      rw [whole, Text.pieces_append absent, List.forall_mem_cons, isWord_iff, String.toList_ofList]
      exact ⟨first, induction next isNext later⟩

end Pattern

section Texts

variable {text : String} {edit : Edit}

/-- An edit consists of what the expression captures in its text. -/
def IsCaptured (text : String) (edit : Edit) : Prop :=
  ∃ path value, Captures text.toList edit.action path value ∧
    edit.tag = ofPath (String.ofList path) (value.map String.ofList)

theorem IsCaptured.isWellFormed (captured : IsCaptured text edit) : edit.tag.IsWellFormed := by
  obtain ⟨action, tag⟩ := edit
  obtain ⟨path, value, captures, rfl⟩ := captured
  have nonempty := Text.pieces_ne_nil '.' (String.ofList path)
  generalize text.toList = letters at captures
  cases captures with
  | path _ isPath => exact ⟨nonempty, isWord_of_mem_pathLanguage isPath, fun _ none => nomatch none⟩
  | value _ isPath isLine =>
      refine ⟨nonempty, isWord_of_mem_pathLanguage isPath, ?_⟩
      rintro _ ⟨⟩
      rwa [isValue_iff, String.toList_ofList]

theorem IsCaptured.toText_eq (captured : IsCaptured text edit) : edit.toText = text := by
  obtain ⟨action, tag⟩ := edit
  obtain ⟨path, value, captures, rfl⟩ := captured
  generalize split : text.toList = letters at captures
  rw [← String.toList_inj, split]
  cases captures with
  | path => simp [toText, toText_ofPath_none]
  | value => simp [toText, toText_ofPath_some]

theorem isCaptured_toText (wellFormed : edit.tag.IsWellFormed) : IsCaptured edit.toText edit := by
  obtain ⟨action, path, value⟩ := edit
  have isPath := intercalate_mem_pathLanguage wellFormed.path_ne_nil wellFormed.segments
  have parts := (ofPath_dottedPath wellFormed value).symm
  cases value with
  | none =>
      refine ⟨(".".intercalate path).toList, none, ?_, ?_⟩
      · have captures := Captures.path action isPath
        simpa [toText, Tag.toText, dottedPath] using captures
      · rwa [String.ofList_toList]
  | some value =>
      refine ⟨(".".intercalate path).toList, some value.toList, ?_, ?_⟩
      · have isLine := isValue_iff.mp (wellFormed.value value rfl)
        have captures := Captures.value action isPath isLine
        simpa [toText, Tag.toText, dottedPath] using captures
      · rwa [Option.map_some, String.ofList_toList, String.ofList_toList]

theorem isCaptured_iff : IsCaptured text edit ↔ edit.tag.IsWellFormed ∧ edit.toText = text := by
  constructor
  · exact fun captured => ⟨captured.isWellFormed, captured.toText_eq⟩
  · rintro ⟨wellFormed, rfl⟩
    exact isCaptured_toText wellFormed

end Texts

/-- An edit is read from a text exactly if it is well-formed and the text is its written form, which
is when the regular expression captures its parts.  So no two texts stand for the same edit. -/
theorem edits_and_texts (text : String) (edit : Edit) :
    (ofText? text = some edit ↔ edit.tag.IsWellFormed ∧ edit.toText = text) ∧
      (ofText? text = some edit ↔ IsCaptured text edit) ∧
      ∀ other, ofText? text = some edit → ofText? other = some edit → text = other := by
  refine ⟨ofText?_eq_some_iff, ofText?_eq_some_iff.trans isCaptured_iff.symm, ?_⟩
  intro other read readOther
  exact (ofText?_eq_some_iff.mp read).2.symm.trans (ofText?_eq_some_iff.mp readOther).2

/-- The path ends at the first colon, and the value goes on through colons, dots and quotes. -/
theorem edits_and_texts_colons :
    let edit : Edit := ⟨.remove, ⟨["name", "first"], some "a:b.c \"d\""⟩⟩
    edit.tag.IsWellFormed ∧ ofText? "-name.first:a:b.c \"d\"" = some edit ∧
      IsCaptured "-name.first:a:b.c \"d\"" edit := by
  intro edit
  have wellFormed : edit.tag.IsWellFormed := ⟨by decide, by decide, by rintro _ ⟨⟩; decide⟩
  have written : edit.toText = "-name.first:a:b.c \"d\"" := by decide
  obtain ⟨read, captured, -⟩ := edits_and_texts "-name.first:a:b.c \"d\"" edit
  have accepted := read.mpr ⟨wellFormed, written⟩
  exact ⟨wellFormed, accepted, captured.mp accepted⟩

end Edit
end Tag
end TagStore
