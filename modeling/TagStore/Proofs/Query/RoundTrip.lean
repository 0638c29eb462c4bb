import TagStore.Proofs.Query.Grammar
import TagStore.Query.Printer

/-!
# Written queries are read back

A query can be read back from its written form exactly if it is well-formed, and whatever is read
is well-formed.
-/

namespace TagStore
namespace Query

/-- A test that can be written: its path has segments, all of them words, and its value is not empty
and has no quote but perhaps in front. -/
structure TagTest.IsWellFormed (test : TagTest) : Prop where
  /-- There is a segment. -/
  path_ne_nil : test.path ≠ []
  /-- The segments are words. -/
  segments : ∀ segment ∈ test.path, IsWord segment.toList
  /-- The value has a first character, and there is no quote after it. -/
  value : ∀ value ∈ test.value, value ≠ "" ∧ '"' ∉ value.toList.tail

/-- An expression all of whose tests can be written, at whatever depth they stand. -/
inductive Expr.IsWellFormed : Expr → Prop
  /-- A test. -/
  | test {test : TagTest} : test.IsWellFormed → IsWellFormed (.test test)
  /-- A group. -/
  | group {exprs : List Expr} : (∀ expr ∈ exprs, IsWellFormed expr) → IsWellFormed (.group exprs)

/-- A query all of whose tests can be written. -/
def IsWellFormed (query : Query) : Prop := ∀ expr ∈ query, expr.IsWellFormed

/-! ## What is read is well-formed -/

theorem WritesPath.isWord {text : List Char} {path : List String} (writes : WritesPath text path) :
    ∀ segment ∈ path, IsWord segment.toList := by
  induction writes with
  | word isWord => simpa using isWord
  | dot isWord _ induction => exact List.forall_mem_cons.mpr ⟨by simpa using isWord, induction⟩

theorem WritesPath.path_ne_nil {text : List Char} {path : List String}
    (writes : WritesPath text path) : path ≠ [] := by
  cases writes <;> exact List.cons_ne_nil _ _

theorem WritesValue.value {written : List Char} {value : String}
    (writes : WritesValue written value) : value ≠ "" ∧ '"' ∉ value.toList.tail := by
  cases writes with
  | @bare word isWord =>
      refine ⟨fun empty => isWord.1 (by simpa using congrArg String.toList empty), ?_⟩
      rw [String.toList_ofList]
      exact fun member => isWord.not_mem (by decide) (List.mem_of_mem_tail member)
  | @quoted first rest unquoted =>
      refine ⟨fun empty => by simpa using congrArg String.toList empty, ?_⟩
      simpa using unquoted

theorem WritesTest.isWellFormed {text : List Char} {test : TagTest}
    (writes : WritesTest text test) :
    test.IsWellFormed := by
  cases writes with
  | path writes => exact ⟨writes.path_ne_nil, writes.isWord, fun _ none => nomatch none⟩
  | value writes writesValue =>
      refine ⟨writes.path_ne_nil, writes.isWord, ?_⟩
      rintro _ ⟨⟩
      exact writesValue.value

theorem Writes.isWellFormed {text : List Char} {query : Query} (writes : Writes text query) :
    IsWellFormed query := by
  induction writes with
  | nil => exact fun _ none => nomatch none
  | blank _ _ induction => exact induction
  | test writes _ induction => exact List.forall_mem_cons.mpr ⟨.test writes.isWellFormed, induction⟩
  | group _ _ induction induction_later =>
      exact List.forall_mem_cons.mpr ⟨.group induction, induction_later⟩

/-! ## What is well-formed is read back -/

theorem writesPath_intercalate {path : List String} (nonempty : path ≠ [])
    (segments : ∀ segment ∈ path, IsWord segment.toList) :
    WritesPath (".".intercalate path).toList path := by
  induction path with
  | nil => exact absurd rfl nonempty
  | cons segment rest induction =>
      obtain ⟨isWord, later⟩ := List.forall_mem_cons.mp segments
      have spelled : String.ofList segment.toList = segment := String.ofList_toList
      cases rest with
      | nil =>
          have writes := WritesPath.word isWord
          rw [spelled] at writes
          rwa [String.intercalate_singleton]
      | cons next rest =>
          rw [String.intercalate_cons_cons, String.toList_append, String.toList_append]
          have writes := WritesPath.dot isWord (induction (List.cons_ne_nil _ _) later)
          rw [spelled] at writes
          simpa using writes

section Value

variable {value : String}

theorem writesValue_of_isWord (isWord : IsWord value.toList) : WritesValue value.toList value := by
  have writes := WritesValue.bare isWord
  rwa [String.ofList_toList] at writes

theorem writesValue_quoted (nonempty : value ≠ "") (unquoted : '"' ∉ value.toList.tail) :
    WritesValue ('"' :: (value.toList ++ ['"'])) value := by
  have nonempty_list : value.toList ≠ [] := by simpa using nonempty
  obtain ⟨first, rest, split⟩ := List.exists_cons_of_ne_nil nonempty_list
  rw [split, List.tail_cons] at unquoted
  have writes := @WritesValue.quoted first rest unquoted
  rw [← split, String.ofList_toList] at writes
  rwa [split]

theorem writesValue_valueText (nonempty : value ≠ "") (unquoted : '"' ∉ value.toList.tail) :
    WritesValue (valueText value).toList value := by
  rw [valueText]
  split
  · rename_i bare
    exact writesValue_of_isWord ⟨by simpa using nonempty, by simpa [nonempty] using bare⟩
  · simpa using writesValue_quoted nonempty unquoted

end Value

theorem TagTest.IsWellFormed.writes {test : TagTest} (wellFormed : test.IsWellFormed) :
    WritesTest test.toText.toList test := by
  obtain ⟨kind, path, value⟩ := test
  have writes := writesPath_intercalate wellFormed.path_ne_nil wellFormed.segments
  cases value with
  | none =>
      have writesTest : WritesTest _ ⟨kind, path, none⟩ := .path writes
      simpa [TagTest.toText] using writesTest
  | some value =>
      obtain ⟨nonempty, unquoted⟩ := wellFormed.value value rfl
      have writesTest : WritesTest _ ⟨kind, path, some value⟩ :=
        .value writes (writesValue_valueText nonempty unquoted)
      simpa [TagTest.toText] using writesTest

theorem writes_texts {exprs : List Expr}
    (each : ∀ expr ∈ exprs, Writes expr.toText.toList [expr]) :
    Writes (" ".intercalate (Expr.texts exprs)).toList exprs := by
  have texts : List.Forall₂ (fun text query => Writes text.toList query) (Expr.texts exprs)
      (exprs.map fun expr => [expr]) := by
    rw [Expr.texts_eq_map, List.forall₂_map_left_iff, List.forall₂_map_right_iff,
      List.forall₂_same]
    exact each
  have writes := writes_intercalate texts
  rwa [← List.flatMap_def, List.flatMap_singleton'] at writes

theorem Expr.IsWellFormed.writes {expr : Expr} (wellFormed : expr.IsWellFormed) :
    Writes expr.toText.toList [expr] := by
  induction wellFormed with
  | @test test wellFormed =>
      rw [← List.append_nil (Expr.toText _).toList]
      exact .test wellFormed.writes .nil
  | @group exprs _ induction =>
      have inner := writes_texts induction
      simpa [Expr.toText] using Writes.group inner .nil

theorem writes_toText {query : Query} (wellFormed : IsWellFormed query) :
    Writes (toText query).toList query :=
  writes_texts fun expr member => (wellFormed expr member).writes

/-- A query is read back from its written form exactly if it is well-formed.  Whatever is read is
well-formed, so it is read back and written the same way again. -/
theorem parse_toText_eq_ok_iff :
    (∀ query : Query, parse (toText query) = .ok query ↔ IsWellFormed query) ∧
      ∀ (text : String) (query : Query), parse text = .ok query →
        IsWellFormed query ∧ parse (toText query) = .ok query ∧
          (parse (toText query)).map toText = .ok (toText query) := by
  have back (query : Query) (wellFormed : IsWellFormed query) : parse (toText query) = .ok query :=
    parse_eq_ok_iff.mpr (writes_toText wellFormed)
  constructor
  · exact fun query => ⟨fun read => (parse_eq_ok_iff.mp read).isWellFormed, back query⟩
  · intro text query read
    have wellFormed := (parse_eq_ok_iff.mp read).isWellFormed
    exact ⟨wellFormed, back query wellFormed, by rw [back query wellFormed]; rfl⟩

theorem isWellFormed_read_group :
    parse (toText [.group [.test ⟨.excluded, ["cat"], some "a b"⟩]]) =
        .ok [.group [.test ⟨.excluded, ["cat"], some "a b"⟩]] ∧
      IsWellFormed [.group [.test ⟨.excluded, ["cat"], some "a b"⟩]] := by
  have test : TagTest.IsWellFormed ⟨.excluded, ["cat"], some "a b"⟩ := by
    refine ⟨by decide, ?_, ?_⟩
    · exact List.forall_mem_singleton.mpr ⟨by decide, List.all_eq_true.mp (by decide)⟩
    · intro value same
      cases same
      exact ⟨by decide, by decide⟩
  have wellFormed : IsWellFormed [.group [.test ⟨.excluded, ["cat"], some "a b"⟩]] :=
    List.forall_mem_singleton.mpr (.group (List.forall_mem_singleton.mpr (.test test)))
  have read := (parse_toText_eq_ok_iff.1 _).mpr wellFormed
  exact ⟨read, (parse_toText_eq_ok_iff.2 _ _ read).1⟩

end Query
end TagStore
