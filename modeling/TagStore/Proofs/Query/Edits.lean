import TagStore.Proofs.Catalog.Tags
import TagStore.Proofs.Query.Match
import TagStore.Proofs.Query.Unquoted
import TagStore.Proofs.Tag.Edit

/-!
# Queries for the tags of edits

An edit that adds a tag can be read as a query as well.  Its value goes on to the end of an edit,
while in a query it ends with the word unless quotes are put around it.  So the query finds the tag
exactly if the value is a word, or has a blank, for which it gets quotes, and no quote inside.
-/

namespace TagStore

namespace Tag
namespace Edit

variable {text : String} {edit : Edit}

/-- A text that adds a tag is a plus and the text of the tag. -/
theorem adds_of_plus (plus : '+' ∈ text.toList.head?) (read : ofText? text = some edit) :
    edit.action = .add ∧ text.toList = '+' :: edit.tag.toText.toList := by
  obtain ⟨-, rfl⟩ := ofText?_eq_some_iff.mp read
  obtain ⟨action, tag⟩ := edit
  have letters : (toText ⟨action, tag⟩).toList = action.sign :: tag.toText.toList := by
    simp [toText]
  rw [letters] at plus ⊢
  cases action with
  | add => exact ⟨rfl, rfl⟩
  | remove => cases plus

end Edit

theorem IsWellFormed.isWord {tag : Tag} (wellFormed : tag.IsWellFormed) :
    ∀ segment ∈ tag.path, Query.IsWord segment.toList :=
  fun segment member => Edit.isWord_iff.mp (wellFormed.segments segment member)

theorem IsWellFormed.writesPath {tag : Tag} (wellFormed : tag.IsWellFormed) :
    Query.WritesPath tag.dottedPath.toList tag.path :=
  Query.writesPath_intercalate wellFormed.path_ne_nil wellFormed.isWord

end Tag

namespace Query

open Search (lookahead)

/-- A tag is what its own path and value are a test for. -/
theorem fits_own (kind : Kind) (tag : Tag) : (⟨kind, tag.path, tag.value⟩ : TagTest).Fits tag := by
  cases valued : tag.value with
  | none => exact List.prefix_rfl
  | some value => exact ⟨rfl, valued⟩

theorem isMatch_required_iff {path : List String} {value : Option String} {tags : List Tag} :
    isMatch [.test ⟨.required, path, value⟩] tags ↔
      (⟨.required, path, value⟩ : TagTest).Found tags := by
  rw [isMatch_iff_meets]
  constructor
  · exact fun meets => meets.required _ List.mem_cons_self
  · exact fun found => ⟨List.forall_mem_singleton.mpr found, .inl rfl,
      List.forall_mem_nil _, List.forall_mem_nil _⟩

section Value

variable {argument value : String} {kind : Kind} {text behind : List Char} {path : List String}
  {query : Query}

theorem WritesPath.eq_of_append {other rest later : List Char} {further : List String}
    (writes : WritesPath text path) (others : WritesPath other further) (ends : EndsPath rest)
    (endsLater : EndsPath later) (same : text ++ rest = other ++ later) :
    path = further ∧ rest = later := by
  have lengths := (writes.pathLength ends).symm.trans
    ((congrArg lookahead.pathLength same).trans (others.pathLength endsLater))
  obtain ⟨texts, rests⟩ := List.append_inj same lengths
  rw [← writes.pieces_eq, ← others.pieces_eq, texts]
  exact ⟨rfl, rests⟩

/-- A text that begins with a path and a colon goes on with the value of a test. -/
theorem Writes.of_colon (writes : Writes (kind.sign :: text ++ ':' :: behind) query)
    (writesPath : WritesPath text path) :
    ∃ written rest value later, behind = written ++ rest ∧ WritesValue written value ∧
      query = .test ⟨kind, path, some value⟩ :: later := by
  have sameKind {other : Kind} (signs : kind.sign = other.sign) : kind = other :=
    Option.some.inj (by rw [← Kind.ofSign?_sign, signs, Kind.ofSign?_sign])
  have colon {rest : List Char} : EndsPath (':' :: rest) := .cons (by decide) (by decide) rest
  generalize whole : kind.sign :: text ++ ':' :: behind = letters at writes
  cases writes with
  | nil => cases whole
  | blank blank =>
      have not_blank : ¬Text.isBlank kind.sign := by cases kind <;> decide
      exact absurd ((List.cons.inj whole).1 ▸ blank) not_blank
  | group => cases kind <;> cases (List.cons.inj whole).1
  | @test _ rest _ _ writesTest later =>
      cases writesTest with
      | path others =>
          obtain ⟨-, bodies⟩ := List.cons.inj whole
          obtain ⟨-, rfl⟩ := writesPath.eq_of_append others colon later.endsTest.1 bodies
          exact absurd rfl later.endsTest.2
      | @value _ other written _ _ others writesValue =>
          obtain ⟨signs, -⟩ := List.cons.inj whole
          have bodies : text ++ ':' :: behind = other ++ ':' :: (written ++ rest) := by
            simpa [signs] using whole
          obtain ⟨rfl, rests⟩ := writesPath.eq_of_append others colon colon bodies
          cases sameKind signs
          exact ⟨_, _, _, _, (List.cons.inj rests).2, writesValue, rfl⟩

/-- An argument with a value after a path is read as a test of some value, if at all.  It is this
value only if it is bare. -/
theorem Writes.of_requote (writes : Writes (requote argument).toList query)
    (writesPath : WritesPath text path)
    (split : argument.toList = kind.sign :: text ++ ':' :: value.toList) :
    ∃ found later, query = .test ⟨kind, path, some found⟩ :: later ∧
      (found = value → IsBare value.toList) := by
  rw [requote_eq (writesPath.colon_free_sign kind) split] at writes
  split at writes
  · rename_i needs
    rw [String.toList_ofList] at writes
    obtain ⟨written, rest, found, later, whole, writesValue, rfl⟩ := writes.of_colon writesPath
    refine ⟨found, later, rfl, ?_⟩
    rintro rfl
    cases writesValue with
    | @bare word isWord =>
        obtain ⟨first, others, rfl⟩ := List.exists_cons_of_ne_nil isWord.1
        have outside := isWord.2 first List.mem_cons_self
        rw [← (List.cons.inj whole).1] at outside
        cases outside
    | @quoted first inner unquoted =>
        rw [String.toList_ofList] at needs ⊢
        exact .inr ⟨needs.1, List.not_mem_cons_of_ne_of_not_mem
          (fun quote => needs.2 (congrArg some quote.symm)) unquoted⟩
  · rw [split] at writes
    obtain ⟨written, rest, found, later, whole, writesValue, rfl⟩ := writes.of_colon writesPath
    refine ⟨found, later, rfl, ?_⟩
    rintro rfl
    cases writesValue with
    | bare isWord =>
        rw [String.toList_ofList]
        exact .inl isWord
    | quoted =>
        -- The quotes and the value would be longer than the value.
        have lengths := congrArg List.length whole
        simp only [String.toList_ofList, List.length_append, List.length_cons] at lengths
        omega

end Value

section Added

variable {text : String} {edit : Tag.Edit} {query : Query}

/-- What adds a tag is read as a test for the tag if the value of the tag is bare. -/
theorem writes_of_added (plus : '+' ∈ text.toList.head?) (read : Tag.Edit.ofText? text = some edit)
    (bare : ∀ value ∈ edit.tag.value, IsBare value.toList) :
    Writes (requote text).toList [.test ⟨.required, edit.tag.path, edit.tag.value⟩] := by
  have wellFormed := Tag.Edit.isWellFormed_of_ofText? read
  have test : TagTest.IsBare ⟨.required, edit.tag.path, edit.tag.value⟩ :=
    ⟨wellFormed.path_ne_nil, wellFormed.isWord, bare⟩
  have spelled : text = TagTest.argument ⟨.required, edit.tag.path, edit.tag.value⟩ := by
    rw [← String.toList_inj, (Tag.Edit.adds_of_plus plus read).2]
    simp [TagTest.argument, Kind.sign]
  rw [spelled]
  exact test.writes

/-- What adds a tag finds the tag only if the value of the tag is bare. -/
theorem isBare_of_finds_added (plus : '+' ∈ text.toList.head?)
    (read : Tag.Edit.ofText? text = some edit) (writes : Writes (requote text).toList query)
    (finds : isMatch query [edit.tag]) : ∀ value ∈ edit.tag.value, IsBare value.toList := by
  intro value valued
  have writesPath := (Tag.Edit.isWellFormed_of_ofText? read).writesPath
  have split : text.toList =
      Kind.required.sign :: edit.tag.dottedPath.toList ++ ':' :: value.toList := by
    rw [(Tag.Edit.adds_of_plus plus read).2, Tag.toText, valued]
    simp [Kind.sign]
  obtain ⟨found, later, rfl, bare⟩ := writes.of_requote writesPath split
  obtain ⟨tag, member, fits⟩ :=
    ((isMatch_iff_meets _ _).mp finds).required ⟨.required, edit.tag.path, some found⟩ (by
      simp [testsOf])
  rw [List.mem_singleton.mp member] at fits
  exact bare (Option.some.inj (fits.2.symm.trans valued))

/-- What adds a tag finds the tag in every file that has got it, exactly if the value of the tag is
bare. -/
theorem finds_added_iff (plus : '+' ∈ text.toList.head?)
    (read : Tag.Edit.ofText? text = some edit) :
    (∀ file : FileRecord, ∃ query, ofArguments [text] = .ok query ∧
      isMatch query (file.apply edit).tags) ↔ ∀ value ∈ edit.tag.value, IsBare value.toList := by
  have wellFormed := Tag.Edit.isWellFormed_of_ofText? read
  have adds := (Tag.Edit.adds_of_plus plus read).1
  have alone : ofArguments [text] = ofArgument (requote text) := by
    rw [ofArguments, List.map_singleton, String.intercalate_singleton]
  rw [alone]
  constructor
  · intro always
    obtain ⟨query, accepted, finds⟩ := always ⟨"", []⟩
    have tags : (FileRecord.apply ⟨"", []⟩ edit).tags = [edit.tag] :=
      (FileRecord.tags_apply_add adds wellFormed).trans (if_neg List.not_mem_nil)
    rw [tags] at finds
    exact isBare_of_finds_added plus read (ofArgument_eq_ok_iff.mp accepted) finds
  · intro bare file
    refine ⟨_, ofArgument_eq_ok_iff.mpr (writes_of_added plus read bare), ?_⟩
    rw [isMatch_required_iff]
    exact ⟨edit.tag, (FileRecord.mem_tags_apply_add_iff adds wellFormed).mpr (.inr rfl),
      fits_own .required edit.tag⟩

theorem finds_added_bree :
    ∃ query, ofArguments ["+name:bree bree"] = .ok query ∧
      isMatch query (FileRecord.apply ⟨"fido.png", [.plain "dog"]⟩
        ⟨.add, ⟨["name"], some "bree bree"⟩⟩).tags := by
  have read : Tag.Edit.ofText? "+name:bree bree" =
      some ⟨.add, ⟨["name"], some "bree bree"⟩⟩ := by decide
  refine (finds_added_iff (by decide) read).mpr ?_ _
  rintro _ ⟨⟩
  exact .inr ⟨⟨' ', by decide, by decide⟩, by decide⟩

/-- With a hyphen in it, a value is cut and what follows excludes another tag.  With a dot in it,
there is no query at all. -/
theorem misses_added_hyphen :
    Tag.Edit.ofText? "+a:x-y" = some ⟨.add, ⟨["a"], some "x-y"⟩⟩ ∧
      ofArguments ["+a:x-y"] =
        .ok [.test ⟨.required, ["a"], some "x"⟩, .test ⟨.excluded, ["y"], none⟩] ∧
      isMatch [.test ⟨.required, ["a"], some "x"⟩, .test ⟨.excluded, ["y"], none⟩]
        (FileRecord.apply ⟨"fido.png", []⟩ ⟨.add, ⟨["a"], some "x-y"⟩⟩).tags = false ∧
      Tag.Edit.ofText? "+a:x.y" = some ⟨.add, ⟨["a"], some "x.y"⟩⟩ ∧
      ofArguments ["+a:x.y"] = .error ⟨"+a:x.y", .unexpected 4⟩ := by
  decide +kernel

end Added

end Query
end TagStore
