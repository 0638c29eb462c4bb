import TagStore.Proofs.Query.Arguments
import TagStore.Proofs.Query.RoundTrip

/-!
# Tests without quotes

An argument needs no quotes of its own: its value gets them if there is a blank in it, and can do
without if it is a word.  An argument that has got quotes keeps them as they are.
-/

namespace TagStore
namespace Query

/-- A value that need not be between quotes in an argument: a word, or a text with a blank and
without quotes. -/
def IsBare (value : List Char) : Prop :=
  IsWord value ∨ (∃ c ∈ value, Text.isBlank c) ∧ '"' ∉ value

/-- A test whose argument needs no quotes: there is a segment, all segments are words, and the
value, if there is one, is bare. -/
@[mk_iff]
structure TagTest.IsBare (test : TagTest) : Prop where
  /-- There is a segment. -/
  path_ne_nil : test.path ≠ []
  /-- The segments are words. -/
  segments : ∀ segment ∈ test.path, IsWord segment.toList
  /-- The value is bare. -/
  value : ∀ value ∈ test.value, Query.IsBare value.toList

instance (text : List Char) : Decidable (IsWord text) :=
  decidable_of_iff (text ≠ [] ∧ text.all Text.isWordChar) (by rw [IsWord, List.all_eq_true])

instance (value : List Char) : Decidable (IsBare value) :=
  decidable_of_iff (IsWord value ∨ value.any Text.isBlank ∧ '"' ∉ value)
    (by rw [IsBare, List.any_eq_true])

instance (test : TagTest) : Decidable test.IsBare := decidable_of_iff _ (test.isBare_iff).symm

/-- A test as an argument: its sign and what it looks for, as the text of a tag. -/
def TagTest.argument (test : TagTest) : String :=
  String.singleton test.kind.sign ++ (Tag.mk test.path test.value).toText

section Value

variable {argument value : String} {kind : Kind} {text : List Char} {path : List String}

/-- A bare value after a path is the value of the test. -/
theorem IsBare.writes (bare : IsBare value.toList) (writesPath : WritesPath text path)
    (split : argument.toList = kind.sign :: text ++ ':' :: value.toList) :
    Writes (requote argument).toList [.test ⟨kind, path, some value⟩] := by
  have single {written : List Char} (writesValue : WritesValue written value) :
      Writes (kind.sign :: text ++ ':' :: written) [.test ⟨kind, path, some value⟩] := by
    have writesTest : WritesTest (kind.sign :: text ++ ':' :: written) ⟨kind, path, some value⟩ :=
      .value writesPath writesValue
    have writes := Writes.test writesTest .nil
    rwa [List.append_nil] at writes
  have absent := writesPath.colon_free_sign kind
  rcases bare with isWord | ⟨blank, unquoted⟩
  · have plain : ¬NeedsQuotes value.toList := by
      rintro ⟨⟨c, member, isBlank⟩, -⟩
      exact Text.not_isWordChar_of_isBlank isBlank (isWord.2 c member)
    rw [requote_of_not_needsQuotes absent split plain, split]
    exact single (writesValue_of_isWord isWord)
  · have needs : NeedsQuotes value.toList :=
      ⟨blank, fun first => unquoted (List.mem_of_mem_head? first)⟩
    obtain ⟨c, member, -⟩ := blank
    have nonempty : value ≠ "" := by
      rintro rfl
      cases member
    rw [requote_eq absent split, if_pos needs, String.toList_ofList]
    exact single (writesValue_quoted nonempty (mt List.mem_of_mem_tail unquoted))

end Value

/-- The argument of a test without quotes is read as the test. -/
theorem TagTest.IsBare.writes {test : TagTest} (bare : test.IsBare) :
    Writes (requote test.argument).toList [.test test] := by
  obtain ⟨kind, path, value⟩ := test
  have writesPath := writesPath_intercalate bare.path_ne_nil bare.segments
  cases value with
  | none =>
      have split : (TagTest.argument ⟨kind, path, none⟩).toList =
          kind.sign :: (".".intercalate path).toList := by
        simp [TagTest.argument, Tag.toText, Tag.dottedPath]
      have absent := writesPath.colon_free_sign kind
      rw [requote_of_not_mem (split ▸ absent), split, ← List.append_nil (_ :: _)]
      exact .test (.path writesPath) .nil
  | some value =>
      refine (bare.value value rfl).writes writesPath ?_
      simp [TagTest.argument, Tag.toText, Tag.dottedPath]

/-- What has been put between quotes begins with a quote behind its first colon. -/
theorem requote_requote (argument : String) : requote (requote argument) = requote argument := by
  by_cases kept : requote argument = argument
  · rw [kept, kept]
  · obtain ⟨before, value, absent, -, -, quoted⟩ := exists_of_requote_ne kept
    exact requote_of_not_needsQuotes absent quoted fun needs => needs.2 rfl

/-- Tests whose values are words, or have a blank and no quotes, are what their arguments without
quotes are read as.  Putting arguments between quotes once more changes nothing. -/
theorem ofArguments_argument :
    (∀ tests : List TagTest, (∀ test ∈ tests, test.IsBare) →
      ofArguments (tests.map TagTest.argument) = .ok (tests.map .test)) ∧
    ∀ arguments : List String, (arguments.map requote).map requote = arguments.map requote := by
  constructor
  · intro tests bare
    apply ofArguments_of_writes
    rw [List.forall₂_map_left_iff, List.forall₂_map_right_iff, List.forall₂_same]
    exact fun test member => (bare test member).writes
  · intro arguments
    rw [List.map_map]
    exact List.map_congr_left fun argument _ => requote_requote argument

/-- A value keeps its colon, its brackets and the blanks around it, an ideographic space among
them. -/
theorem ofArguments_argument_blanks :
    ofArguments ["~name: a:[b]\u3000", "-fur.black", "+legs:4"] =
        .ok [.test ⟨.included, ["name"], some " a:[b]\u3000"⟩,
          .test ⟨.excluded, ["fur", "black"], none⟩, .test ⟨.required, ["legs"], some "4"⟩] ∧
      (["~name: a:[b]\u3000"].map requote).map requote = ["~name:\" a:[b]\u3000\""] := by
  let tests : List TagTest := [⟨.included, ["name"], some " a:[b]\u3000"⟩,
    ⟨.excluded, ["fur", "black"], none⟩, ⟨.required, ["legs"], some "4"⟩]
  have bare : ∀ test ∈ tests, test.IsBare := by decide
  have spelled : tests.map TagTest.argument =
      ["~name: a:[b]\u3000", "-fur.black", "+legs:4"] := by decide
  refine ⟨spelled ▸ ofArguments_argument.1 tests bare, ?_⟩
  rw [ofArguments_argument.2]
  decide

end Query
end TagStore
