import TagStore.Text.Chars

/-!
# Laws of characters and pieces

A character of a class differs from every character outside of it, and a text is cut into pieces
exactly where the pieces were joined.
-/

namespace TagStore
namespace Text

theorem ne_of_isWordChar {c other : Char} (word : isWordChar c) (outside : ¬isWordChar other) :
    c ≠ other := by
  rintro rfl
  exact outside word

theorem ne_of_isBlank {c other : Char} (blank : isBlank c) (outside : ¬isBlank other) :
    c ≠ other := by
  rintro rfl
  exact outside blank

theorem isWordChar_iff {c : Char} :
    isWordChar c ↔ ((65 ≤ c.toNat ∧ c.toNat ≤ 90 ∨ 97 ≤ c.toNat ∧ c.toNat ≤ 122) ∨
      48 ≤ c.toNat ∧ c.toNat ≤ 57) ∨ c.toNat = 95 := by
  have alphanumeric : c.isAlphanum = (c.isUpper || c.isLower || c.isDigit) := rfl
  have upper : c.isUpper ↔ 65 ≤ c.toNat ∧ c.toNat ≤ 90 := decide_eq_true_iff
  have lower : c.isLower ↔ 97 ≤ c.toNat ∧ c.toNat ≤ 122 := by
    rw [← decide_eq_true_iff (p := 97 ≤ c.toNat), ← decide_eq_true_iff (p := c.toNat ≤ 122),
      ← Bool.and_eq_true]
    rfl
  have underscore : c = '_' ↔ c.toNat = 95 := Char.toNat_inj.symm
  simp only [isWordChar, alphanumeric, Bool.or_eq_true, upper, lower, Char.isDigit_iff_toNat,
    beq_iff_eq, underscore]
  rfl

theorem isBlank_iff {c : Char} :
    isBlank c ↔ ∃ range ∈ blankRanges, range.1 ≤ c.toNat ∧ c.toNat ≤ range.2 := by
  simp [isBlank]

theorem blankRanges_apart : ∀ range ∈ blankRanges, range.2 < 48 ∨ 122 < range.1 := by decide

theorem not_isWordChar_of_isBlank {c : Char} (blank : isBlank c) : ¬isWordChar c := by
  obtain ⟨range, member, inside⟩ := isBlank_iff.mp blank
  rw [isWordChar_iff]
  have := blankRanges_apart range member
  omega

theorem pieces_of_not_mem {separator : Char} {piece : List Char} (absent : separator ∉ piece) :
    pieces separator (String.ofList piece) = [String.ofList piece] := by
  rw [pieces, String.toList_ofList, List.splitOn_eq_singleton absent, List.map_singleton]

theorem pieces_append {separator : Char} {piece : List Char} (absent : separator ∉ piece)
    (rest : List Char) :
    pieces separator (String.ofList (piece ++ separator :: rest)) =
      String.ofList piece :: pieces separator (String.ofList rest) := by
  rw [pieces, String.toList_ofList, List.splitOn_append_cons_self_of_not_mem absent, List.map_cons,
    pieces, String.toList_ofList]

theorem pieces_intercalate (separator : Char) {parts : List String} (nonempty : parts ≠ [])
    (apart : ∀ part ∈ parts, separator ∉ part.toList) :
    pieces separator ((String.singleton separator).intercalate parts) = parts := by
  induction parts with
  | nil => exact absurd rfl nonempty
  | cons part rest induction =>
      obtain ⟨first, later⟩ := List.forall_mem_cons.mp apart
      cases rest with
      | nil =>
          have single := pieces_of_not_mem first
          rw [String.ofList_toList] at single
          rwa [String.intercalate_singleton]
      | cons next rest =>
          have split := pieces_append first
            ((String.singleton separator).intercalate (next :: rest)).toList
          rw [String.ofList_toList, String.ofList_toList, induction (List.cons_ne_nil _ _) later]
            at split
          rw [String.intercalate_cons_cons, ← split]
          apply congrArg (pieces separator)
          simp [← String.toList_inj]

theorem pieces_ne_nil (separator : Char) (text : String) : pieces separator text ≠ [] := by
  simp [pieces, List.splitOn_ne_nil]

/-- The pieces of a text make up the text. -/
theorem intercalate_pieces (separator : Char) (text : String) :
    (String.singleton separator).intercalate (pieces separator text) = text := by
  have whole : (pieces separator text).map String.toList = text.toList.splitOn separator := by
    simp [pieces, Function.comp_def]
  rw [← String.toList_inj, String.toList_intercalate, whole, String.toList_singleton,
    List.intercalate_splitOn]

theorem not_mem_of_mem_splitOn {separator : Char} {text piece : List Char}
    (listed : piece ∈ text.splitOn separator) : separator ∉ piece := by
  induction text generalizing piece with
  | nil =>
      rw [List.splitOn_nil, List.mem_singleton] at listed
      rw [listed]
      exact List.not_mem_nil
  | cons c rest induction =>
      rw [List.splitOn_cons_eq_if_modifyHead] at listed
      split at listed
      · rcases List.mem_cons.mp listed with rfl | later
        · exact List.not_mem_nil
        · exact induction later
      · rename_i other
        obtain ⟨first, others, split⟩ :=
          List.exists_cons_of_ne_nil (List.splitOn_ne_nil separator rest)
        rw [split] at listed induction
        rcases List.mem_cons.mp listed with rfl | later
        · refine List.not_mem_cons_of_ne_of_not_mem ?_ (induction List.mem_cons_self)
          rintro rfl
          exact other BEq.rfl
        · exact induction (List.mem_cons_of_mem _ later)

/-- A piece has no separator in it. -/
theorem not_mem_of_mem_pieces {separator : Char} {text piece : String}
    (listed : piece ∈ pieces separator text) : separator ∉ piece.toList := by
  obtain ⟨letters, member, rfl⟩ := List.mem_map.mp listed
  rw [String.toList_ofList]
  exact not_mem_of_mem_splitOn member

/-- Joined parts are cut into these parts again exactly if there are any and no separator stands in
one of them. -/
theorem pieces_intercalate_eq_iff {separator : Char} {parts : List String} :
    pieces separator ((String.singleton separator).intercalate parts) = parts ↔
      parts ≠ [] ∧ ∀ part ∈ parts, separator ∉ part.toList := by
  constructor
  · intro same
    refine ⟨same ▸ pieces_ne_nil separator _, fun part listed => ?_⟩
    rw [← same] at listed
    exact not_mem_of_mem_pieces listed
  · rintro ⟨nonempty, apart⟩
    exact pieces_intercalate separator nonempty apart

theorem mem_intercalate {separator : String} {parts : List String} {part : String} {c : Char}
    (listed : part ∈ parts) (member : c ∈ part.toList) :
    c ∈ (separator.intercalate parts).toList := by
  induction parts with
  | nil => cases listed
  | cons first rest induction =>
      cases rest with
      | nil =>
          rw [List.mem_singleton] at listed
          rwa [String.intercalate_singleton, ← listed]
      | cons next rest =>
          rw [String.intercalate_cons_cons, String.toList_append, String.toList_append]
          rcases List.mem_cons.mp listed with rfl | later
          · exact List.mem_append_left _ (List.mem_append_left _ member)
          · exact List.mem_append_right _ (induction later)

theorem not_mem_intercalate {separator other : Char} (different : other ≠ separator)
    {parts : List String} (apart : ∀ part ∈ parts, other ∉ part.toList) :
    other ∉ ((String.singleton separator).intercalate parts).toList := by
  induction parts with
  | nil => simp
  | cons part rest induction =>
      obtain ⟨first, later⟩ := List.forall_mem_cons.mp apart
      cases rest with
      | nil => rwa [String.intercalate_singleton]
      | cons next rest =>
          rw [String.intercalate_cons_cons, String.toList_append, String.toList_append]
          simp only [List.mem_append, String.toList_singleton, List.mem_singleton, not_or]
          exact ⟨⟨first, different⟩, induction later⟩

theorem not_mem_intercalate_iff {separator other : Char} (different : other ≠ separator)
    {parts : List String} :
    other ∉ ((String.singleton separator).intercalate parts).toList ↔
      ∀ part ∈ parts, other ∉ part.toList :=
  ⟨fun absent _ listed member => absent (mem_intercalate listed member),
    not_mem_intercalate different⟩

theorem cutChars_append {separator : Char} {before : List Char} (absent : separator ∉ before)
    (after : List Char) :
    cutChars separator (before ++ separator :: after) = some (before, after) := by
  induction before with
  | nil => simp [cutChars]
  | cons c rest induction =>
      rw [List.mem_cons, not_or] at absent
      simp [cutChars, Ne.symm absent.1, induction absent.2]

theorem cutChars_of_not_mem {separator : Char} {text : List Char} (absent : separator ∉ text) :
    cutChars separator text = none := by
  induction text with
  | nil => rfl
  | cons c rest induction =>
      rw [List.mem_cons, not_or] at absent
      simp [cutChars, Ne.symm absent.1, induction absent.2]

theorem cut_append {separator : Char} {before : String} (absent : separator ∉ before.toList)
    (after : String) :
    cut separator (before ++ String.singleton separator ++ after) = some (before, after) := by
  have split := cutChars_append absent after.toList
  simp [cut, split]

theorem cut_of_not_mem {separator : Char} {text : String} (absent : separator ∉ text.toList) :
    cut separator text = none := by
  simp [cut, cutChars_of_not_mem absent]

/-- What is cut was put together with the first separator in between. -/
theorem cutChars_eq_some {separator : Char} {text before after : List Char}
    (cut : cutChars separator text = some (before, after)) :
    separator ∉ before ∧ text = before ++ separator :: after := by
  induction text generalizing before with
  | nil => cases cut
  | cons c rest induction =>
      rw [cutChars] at cut
      split at cut
      · rename_i same
        cases cut
        exact ⟨List.not_mem_nil, by rw [same, List.nil_append]⟩
      · rename_i different
        obtain ⟨⟨inner, _⟩, found, same⟩ := Option.map_eq_some_iff.mp cut
        cases same
        obtain ⟨absent, split⟩ := induction found
        exact ⟨List.not_mem_cons_of_ne_of_not_mem (Ne.symm different) absent,
          congrArg (c :: ·) split⟩

/-- A text has only one first separator. -/
theorem eq_of_first {separator : Char} {before after other later : List Char}
    (absent : separator ∉ before) (absentOther : separator ∉ other)
    (same : before ++ separator :: after = other ++ separator :: later) :
    before = other ∧ after = later := by
  have cut := cutChars_append absent after
  rw [same, cutChars_append absentOther, Option.some.injEq, Prod.mk.injEq] at cut
  exact ⟨cut.1.symm, cut.2.symm⟩

theorem cut_eq_some {separator : Char} {text before after : String}
    (found : cut separator text = some (before, after)) :
    separator ∉ before.toList ∧ text = before ++ String.singleton separator ++ after := by
  obtain ⟨⟨first, last⟩, split, same⟩ := Option.map_eq_some_iff.mp found
  cases same
  obtain ⟨absent, whole⟩ := cutChars_eq_some split
  refine ⟨by simpa using absent, ?_⟩
  simp [← String.toList_inj, whole]

/-- A text that cannot be cut has no separator. -/
theorem not_mem_of_cut {separator : Char} {text : String} (uncut : cut separator text = none) :
    separator ∉ text.toList := by
  rw [cut, Option.map_eq_none_iff] at uncut
  generalize text.toList = letters at uncut ⊢
  induction letters with
  | nil => exact List.not_mem_nil
  | cons c rest induction =>
      rw [cutChars] at uncut
      split at uncut
      · cases uncut
      · rename_i different
        exact List.not_mem_cons_of_ne_of_not_mem (Ne.symm different)
          (induction (Option.map_eq_none_iff.mp uncut))

end Text
end TagStore
