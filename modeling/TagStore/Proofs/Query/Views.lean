import TagStore.Proofs.Query.Marking

/-!
# Groups on their own

The reader looks at the contents of a group through the marks of the whole text.  What it finds
there is what it would find in a query of its own, with marks made for the contents alone.
-/

namespace TagStore
namespace Query

/-- Reading a view comes to a group with certain contents, at whatever depth the group stands.  The
groups after one that cannot be read are counted in. -/
inductive Lookahead.Enters {α : Type} (ahead : Lookahead α) : List α → List α → Prop
  /-- The group comes after a blank. -/
  | blank {head : α} {rest contents : List α} : Text.isBlank (ahead.char head) →
      Enters ahead rest contents → Enters ahead (head :: rest) contents
  /-- The group comes after a token. -/
  | token {head : α} {rest after contents : List α} {token : Token α} :
      ¬Text.isBlank (ahead.char head) → ahead.readToken head rest = some (token, after) →
      Enters ahead after contents → Enters ahead (head :: rest) contents
  /-- The group is the first token. -/
  | group {head : α} {rest after contents : List α} : ¬Text.isBlank (ahead.char head) →
      ahead.readToken head rest = some (.group contents, after) →
      Enters ahead (head :: rest) contents
  /-- The group stands in the group that is the first token. -/
  | nested {head : α} {rest after outer contents : List α} : ¬Text.isBlank (ahead.char head) →
      ahead.readToken head rest = some (.group outer, after) → Enters ahead outer contents →
      Enters ahead (head :: rest) contents

namespace Mark

/-- The marks that a group has from the text around it are right in the contents alone. -/
theorem Paired.of_enters {view contents : List Mark} (enters : lookahead.Enters view contents)
    (sighted : Sighted view) (paired : Paired false view) :
    Sighted contents ∧ Paired false contents := by
  induction enters with
  | blank blank _ induction => exact induction (sighted.drop 1) (paired.afterBlank blank)
  | token _ read _ induction =>
      obtain ⟨⟨after_paired, after_sighted⟩, -⟩ := paired.afterToken (sighted.drop 1) read
      exact induction after_sighted after_paired
  | group _ read =>
      obtain ⟨-, within⟩ := paired.afterToken (sighted.drop 1) read
      exact (within _ rfl).symm
  | nested _ read _ induction =>
      obtain ⟨-, within⟩ := paired.afterToken (sighted.drop 1) read
      obtain ⟨outer_paired, outer_sighted⟩ := within _ rfl
      exact induction outer_sighted outer_paired

/-- A view with right marks is read as a query of its own. -/
theorem read_eq_parse {view : List Mark} (sighted : Sighted view) (paired : Paired false view) :
    lookahead.read view = parse (lookahead.spell view) := by
  have same := readView_map view.length sighted paired
  rw [parse_eq_read, Lookahead.spell, String.toList_ofList, Lookahead.read, Lookahead.read, ← same]
  exact congrArg (Search.lookahead.readView · _) (List.length_map lookahead.char).symm

theorem sighted_ofText (text : List Char) : Sighted (ofText text) :=
  sighted_marksFrom 0 0 false text

theorem paired_ofText (text : List Char) : Paired false (ofText text) :=
  paired_marksFrom 0 false text

end Mark

/-- Reading with marks made once for the whole text is reading by searching in each group anew,
errors included.  Every group that is entered on the way is read as its contents are when they are
the whole text. -/
theorem parse_eq_parseBySearch :
    (∀ text : String, parse text = parseBySearch text) ∧
      ∀ (text : String) (contents : List Mark),
        Mark.lookahead.Enters (Mark.ofText text.toList) contents →
          Mark.lookahead.read contents = parse (Mark.lookahead.spell contents) := by
  refine ⟨parse_eq_read, fun text contents enters => ?_⟩
  obtain ⟨sighted, paired⟩ :=
    Mark.Paired.of_enters enters (Mark.sighted_ofText _) (Mark.paired_ofText _)
  exact Mark.read_eq_parse sighted paired

theorem read_contents_quoted_bracket :
    ∃ contents, Mark.lookahead.Enters (Mark.ofText "[+a:\"]\"] [".toList) contents ∧
      Mark.lookahead.spell contents = "+a:\"]\"" ∧
      Mark.lookahead.read contents = parse "+a:\"]\"" := by
  let marks := Mark.ofText "[+a:\"]\"] [".toList
  have read : Mark.lookahead.readToken ⟨'[', 0, some 4, some 7⟩ (marks.drop 1) =
      some (.group ((marks.drop 1).take 6), marks.drop 8) := by rfl
  have enters : Mark.lookahead.Enters marks ((marks.drop 1).take 6) := .group (by decide) read
  have spelled : Mark.lookahead.spell ((marks.drop 1).take 6) = "+a:\"]\"" := by decide
  exact ⟨_, enters, spelled, spelled ▸ parse_eq_parseBySearch.2 _ _ enters⟩

end Query
end TagStore
