import TagStore.Proofs.Query.Grammar
import TagStore.Query.Arguments
import Mathlib.Data.List.DropRight

/-!
# Queries of several arguments

Arguments are joined by blanks after some of them have been put between quotes.  An argument is put
between quotes from its first colon on, if there is a blank behind the colon and no quote right
after it.  Arguments that write one expression each keep their meaning exactly if none of them is
put between quotes: the quotes change what is behind the first colon, and with it the value that
comes first in the expression.
-/

namespace TagStore

namespace Query

/-! ## Single arguments -/

theorem ofArgument_eq_ok_iff {argument : String} {query : Query} :
    ofArgument argument = .ok query ↔ Writes argument.toList query := by
  rw [← parse_eq_ok_iff, ofArgument]
  cases parse argument with
  | error cause => simp [Except.mapError]
  | ok read => simp [Except.mapError]

/-- A value has a blank and does not begin with a quote. -/
def NeedsQuotes (value : List Char) : Prop := (∃ c ∈ value, Text.isBlank c) ∧ '"' ∉ value.head?

instance (value : List Char) : Decidable (NeedsQuotes value) :=
  inferInstanceAs (Decidable (_ ∧ _))

section Requote

variable {argument : String} {before value : List Char}

theorem requote_of_not_mem (absent : ':' ∉ argument.toList) : requote argument = argument := by
  rw [requote, Text.cut_of_not_mem absent]

theorem requote_eq (absent : ':' ∉ before) (split : argument.toList = before ++ ':' :: value) :
    requote argument =
      if NeedsQuotes value then String.ofList (before ++ ':' :: '"' :: (value ++ ['"']))
      else argument := by
  have whole : argument =
      String.ofList before ++ String.singleton ':' ++ String.ofList value := by
    simp [← String.toList_inj, split]
  have cut : Text.cut ':' argument = some (String.ofList before, String.ofList value) := by
    rw [whole]
    exact Text.cut_append (by simpa using absent) _
  have needs : ((String.ofList value).toList.any Text.isBlank &&
      (String.ofList value).toList.head? ≠ some '"') = true ↔ NeedsQuotes value := by
    rw [String.toList_ofList, Bool.and_eq_true, List.any_eq_true, decide_eq_true_eq]
    rfl
  simp only [requote, cut, needs]
  congr 1
  simp [← String.toList_inj]

theorem requote_of_not_needsQuotes (absent : ':' ∉ before)
    (split : argument.toList = before ++ ':' :: value) (plain : ¬NeedsQuotes value) :
    requote argument = argument := by
  rw [requote_eq absent split, if_neg plain]

/-- An argument that is changed is put between quotes from its first colon on. -/
theorem exists_of_requote_ne (changed : requote argument ≠ argument) :
    ∃ before value, ':' ∉ before ∧ argument.toList = before ++ ':' :: value ∧ NeedsQuotes value ∧
      (requote argument).toList = before ++ ':' :: '"' :: (value ++ ['"']) := by
  cases cut : Text.cutChars ':' argument.toList with
  | none =>
      have absent : Text.cut ':' argument = none := by rw [Text.cut, cut]; rfl
      exact absurd (requote_of_not_mem (Text.not_mem_of_cut absent)) changed
  | some halves =>
      obtain ⟨absent, split⟩ := Text.cutChars_eq_some cut
      have needs := Classical.byContradiction fun plain =>
        changed (requote_of_not_needsQuotes absent split plain)
      refine ⟨_, _, absent, split, needs, ?_⟩
      rw [requote_eq absent split, if_pos needs, String.toList_ofList]

end Requote

/-! ## Tests with blanks around them -/

/-- The blanks that a text ends in. -/
def blanksAfter (text : String) : String := String.ofList (text.toList.rtakeWhile Text.isBlank)

/-- The expression with some characters more in its value, if it is a test with a value. -/
def Expr.extend (further : String) : Expr → Expr
  | .test ⟨kind, path, value⟩ => .test ⟨kind, path, value.map (· ++ further)⟩
  | .group exprs => .group exprs

/-- What an argument that writes an expression by itself says among other arguments.  If it is put
between quotes, the blanks at its end belong to the value. -/
def Expr.among (argument : String) (expr : Expr) : Expr :=
  if requote argument = argument then expr else expr.extend (blanksAfter argument)

section Tests

variable {argument : String} {text blanks word : List Char} {query : Query} {test : TagTest}

theorem Writes.blank_append (writes : Writes text query) (blank : ∀ c ∈ blanks, Text.isBlank c) :
    Writes (blanks ++ text) query := by
  induction blanks with
  | nil => exact writes
  | cons c rest induction =>
      obtain ⟨first, later⟩ := List.forall_mem_cons.mp blank
      exact .blank first (induction later)

theorem Writes.isBlank_of_nil (writes : Writes text []) : ∀ c ∈ text, Text.isBlank c := by
  generalize none : ([] : Query) = query at writes
  induction writes with
  | nil => exact fun _ member => nomatch member
  | blank blank _ induction => exact List.forall_mem_cons.mpr ⟨blank, induction none⟩
  | test => cases none
  | group => cases none

/-- What writes a single test is a text of the test with blanks around it. -/
theorem Writes.exists_writesTest (writes : Writes text [.test test]) :
    ∃ before written after, text = before ++ (written ++ after) ∧
      (∀ c ∈ before, Text.isBlank c) ∧ WritesTest written test ∧ ∀ c ∈ after, Text.isBlank c := by
  generalize single : [Expr.test test] = query at writes
  induction writes with
  | nil => cases single
  | @blank c _ _ blank _ induction =>
      obtain ⟨before, written, after, rfl, blanks, rest⟩ := induction single
      exact ⟨c :: before, written, after, rfl, List.forall_mem_cons.mpr ⟨blank, blanks⟩, rest⟩
  | test written later =>
      cases single
      exact ⟨[], _, _, rfl, List.forall_mem_nil _, written, later.isBlank_of_nil⟩
  | group => cases single

theorem WritesPath.colon_free {path : List String} (writes : WritesPath text path) :
    ':' ∉ text := by
  induction writes with
  | word isWord => exact isWord.not_mem (by decide)
  | dot isWord _ induction =>
      rw [List.mem_append, List.mem_cons, not_or, not_or]
      exact ⟨isWord.not_mem (by decide), by decide, induction⟩

theorem sign_ne_colon (kind : Kind) : ':' ≠ kind.sign := by cases kind <;> decide

theorem WritesPath.colon_free_sign {path : List String} (writes : WritesPath text path)
    (kind : Kind) : ':' ∉ kind.sign :: text :=
  List.not_mem_cons_of_ne_of_not_mem (sign_ne_colon kind) writes.colon_free

theorem colon_free_of_isBlank (blank : ∀ c ∈ text, Text.isBlank c) : ':' ∉ text :=
  fun member => Text.ne_of_isBlank (blank _ member) (by decide) rfl

theorem blanksAfter_eq {front : List Char} (isWord : IsWord word)
    (split : argument.toList = front ++ word ++ blanks) (blank : ∀ c ∈ blanks, Text.isBlank c) :
    blanksAfter argument = String.ofList blanks := by
  obtain ⟨last, outer, reversed⟩ :=
    List.exists_cons_of_ne_nil (List.reverse_eq_nil_iff.not.mpr isWord.1)
  have stops : ¬Text.isBlank last := fun inside =>
    Text.not_isWordChar_of_isBlank inside
      (isWord.2 last (List.mem_reverse.mp (reversed ▸ List.mem_cons_self)))
  have passed : ∀ c ∈ blanks.reverse, Text.isBlank c :=
    fun c member => blank c (List.mem_reverse.mp member)
  have ends : (front ++ word).reverse.takeWhile Text.isBlank = [] := by
    rw [List.reverse_append, reversed, List.cons_append, List.takeWhile_cons_of_neg stops]
  rw [blanksAfter, split, List.rtakeWhile, List.reverse_append, List.takeWhile_append_of_pos passed,
    ends, List.append_nil, List.reverse_reverse]

/-- An argument that writes a test writes it with the blanks at its end, once it has been put
between quotes. -/
theorem writes_requote (writes : Writes argument.toList [.test test]) :
    Writes (requote argument).toList [(Expr.test test).among argument] := by
  by_cases kept : requote argument = argument
  · rwa [kept, Expr.among, if_pos kept]
  · obtain ⟨start, behind, absent, split, needs, quoted⟩ := exists_of_requote_ne kept
    obtain ⟨before, _, after, whole, blanks, writesTest, later⟩ := writes.exists_writesTest
    cases writesTest with
    | @path kind text path writesPath =>
        -- There is no colon after which it could be put between quotes.
        have colon : ':' ∈ argument.toList := split ▸ List.mem_append_right _ List.mem_cons_self
        rw [whole, List.mem_append, List.mem_append] at colon
        rcases colon with inside | inside | inside
        · exact absurd inside (colon_free_of_isBlank blanks)
        · exact absurd inside (writesPath.colon_free_sign kind)
        · exact absurd inside (colon_free_of_isBlank later)
    | @value kind text written path value writesPath writesValue =>
        have front : ':' ∉ before ++ kind.sign :: text := List.not_mem_append
          (colon_free_of_isBlank blanks) (writesPath.colon_free_sign kind)
        have same : before ++ kind.sign :: text ++ ':' :: (written ++ after) =
            start ++ ':' :: behind := by
          rw [← split, whole]
          simp
        obtain ⟨rfl, rfl⟩ := Text.eq_of_first front absent same
        cases writesValue with
        | bare isWord =>
            have unquoted : '"' ∉ written ++ after :=
              List.not_mem_append (isWord.not_mem (by decide))
                fun member => Text.ne_of_isBlank (later _ member) (by decide) rfl
            obtain ⟨first, rest, value⟩ := List.exists_cons_of_ne_nil
              (List.append_ne_nil_of_left_ne_nil isWord.1 after)
            have writesValue : WritesValue ('"' :: (written ++ after ++ ['"']))
                (String.ofList (written ++ after)) := by
              rw [value] at unquoted ⊢
              exact .quoted (List.not_mem_of_not_mem_cons unquoted)
            have ending : argument.toList =
                before ++ kind.sign :: text ++ [':'] ++ written ++ after := by
              simp [whole]
            have ends : blanksAfter argument = String.ofList after :=
              blanksAfter_eq isWord ending later
            have again : Writes (before ++ (kind.sign :: (text ++ ':' :: _) ++ [])) _ :=
              (Writes.test (.value writesPath writesValue) .nil).blank_append blanks
            rw [quoted, Expr.among, if_neg kept, Expr.extend, ends]
            simpa using again
        | quoted => exact absurd rfl needs.2

end Tests

/-! ## Several arguments -/

section Several

variable {arguments : List String} {exprs : List Expr}

theorem ofArguments_of_writes
    (each : List.Forall₂ (fun argument expr => Writes (requote argument).toList [expr])
      arguments exprs) :
    ofArguments arguments = .ok exprs := by
  have queries : List.Forall₂ (fun argument query => Writes argument.toList query)
      (arguments.map requote) (exprs.map fun expr => [expr]) :=
    List.forall₂_map_left_iff.mpr (List.forall₂_map_right_iff.mpr each)
  have writes := writes_intercalate queries
  rw [← List.flatMap_def, List.flatMap_singleton'] at writes
  rw [ofArguments, ofArgument_eq_ok_iff]
  exact writes

end Several

/-! ## The first value -/

mutual

/-- The value that comes first in an expression. -/
def Expr.firstValue? : Expr → Option String
  | .test single => single.value
  | .group exprs => firstValue? exprs

/-- The value that comes first in a list of expressions. -/
def firstValue? : List Expr → Option String
  | [] => none
  | expr :: rest => expr.firstValue?.or (firstValue? rest)

end

/-- A text has a value behind its first colon, and no quote right behind the value. -/
inductive HasFirst : List Char → String → Prop
  /-- The text is split at its first colon and at the end of the value. -/
  | intro {before written rest : List Char} {value : String} : ':' ∉ before →
      WritesValue written value → '"' ∉ rest.head? →
      HasFirst (before ++ ':' :: (written ++ rest)) value

section First

variable {argument value : String} {front text rest : List Char} {query later : Query} {expr : Expr}

theorem HasFirst.append_left (first : HasFirst text value) (absent : ':' ∉ front) :
    HasFirst (front ++ text) value := by
  obtain ⟨before, writesValue, unquoted⟩ := first
  rw [← List.append_assoc]
  exact .intro (List.not_mem_append absent before) writesValue unquoted

theorem HasFirst.append_right (first : HasFirst text value) (unquoted : '"' ∉ rest.head?) :
    HasFirst (text ++ rest) value := by
  obtain @⟨before, written, behind, _, absent, writesValue, closed⟩ := first
  rw [List.append_assoc, List.cons_append, List.append_assoc]
  refine .intro absent writesValue ?_
  cases behind with
  | nil => exact unquoted
  | cons => exact closed

theorem Writes.quote_not_mem_head? (writes : Writes text query) : '"' ∉ text.head? := by
  cases writes with
  | nil => exact Option.not_mem_none _
  | blank blank => exact fun quote => Text.ne_of_isBlank blank (by decide) (Option.some.inj quote)
  | test writesTest =>
      cases writesTest with
      | @path kind => cases kind <;> exact fun quote => nomatch quote
      | @value kind => cases kind <;> exact fun quote => nomatch quote
  | group => exact fun quote => nomatch quote

theorem Writes.firstValue?_eq_none (writes : Writes text query) (absent : ':' ∉ text) :
    firstValue? query = none := by
  induction writes with
  | nil => rfl
  | blank _ _ induction => exact induction (List.not_mem_of_not_mem_cons absent)
  | test writesTest _ induction =>
      cases writesTest with
      | path => exact induction fun later => absent (List.mem_append_right _ later)
      | value => exact absurd (by simp) absent
  | group _ _ induction induction_later =>
      rw [firstValue?, Expr.firstValue?, induction fun inside => absent (by simp [inside])]
      exact induction_later fun later => absent (by simp [later])

/-- The value behind the first colon of a text is the first value of the query. -/
theorem Writes.exists_hasFirst (writes : Writes text query) (colon : ':' ∈ text) :
    ∃ value, HasFirst text value ∧ firstValue? query = some value := by
  induction writes with
  | nil => cases colon
  | @blank c _ _ blank _ induction =>
      have here : ':' ∉ [c] := colon_free_of_isBlank (List.forall_mem_singleton.mpr blank)
      obtain ⟨value, first, found⟩ := induction ((List.mem_append.mp colon).resolve_left here)
      exact ⟨value, first.append_left here, found⟩
  | @test _ behind _ _ writesTest later induction =>
      cases writesTest with
      | @path kind path _ writesPath =>
          have here := writesPath.colon_free_sign kind
          obtain ⟨value, first, found⟩ := induction ((List.mem_append.mp colon).resolve_left here)
          exact ⟨value, first.append_left here, found⟩
      | @value kind path written _ value writesPath writesValue =>
          have first : HasFirst (kind.sign :: path ++ ':' :: (written ++ behind)) value :=
            .intro (writesPath.colon_free_sign kind) writesValue later.quote_not_mem_head?
          exact ⟨value, by simpa using first, rfl⟩
  | @group contents behind exprs _ inner _ induction induction_later =>
      have opens : ':' ∉ ['['] := by decide
      by_cases inside : ':' ∈ contents
      · obtain ⟨value, first, found⟩ := induction inside
        have closes : '"' ∉ (']' :: behind).head? := fun quote => nomatch quote
        exact ⟨value, (first.append_right closes).append_left opens, by
          rw [firstValue?, Expr.firstValue?, found, Option.some_or]⟩
      · have here : ':' ∉ '[' :: (contents ++ [']']) := by simp [inside]
        have whole : '[' :: (contents ++ ']' :: behind) = '[' :: (contents ++ [']']) ++ behind := by
          simp
        rw [whole] at colon ⊢
        obtain ⟨value, first, found⟩ :=
          induction_later ((List.mem_append.mp colon).resolve_left here)
        exact ⟨value, first.append_left here, by
          rw [firstValue?, Expr.firstValue?, inner.firstValue?_eq_none inside, Option.none_or,
            found]⟩

theorem HasFirst.exists_value {before behind : List Char} (absent : ':' ∉ before)
    (first : HasFirst (before ++ ':' :: behind) value) :
    ∃ written rest, behind = written ++ rest ∧ WritesValue written value ∧ '"' ∉ rest.head? := by
  generalize whole : before ++ ':' :: behind = letters at first
  obtain ⟨start, writesValue, closed⟩ := first
  obtain ⟨-, rfl⟩ := Text.eq_of_first absent start whole
  exact ⟨_, _, rfl, writesValue, closed⟩

theorem WritesValue.eq_or_quoted {written : List Char} (writes : WritesValue written value) :
    IsWord written ∧ written = value.toList ∨ written = '"' :: (value.toList ++ ['"']) := by
  cases writes with
  | bare isWord => exact .inl ⟨isWord, String.toList_ofList.symm⟩
  | quoted => exact .inr (by rw [String.toList_ofList, List.cons_append])

/-- Quotes around what is behind its first colon give an argument another first value. -/
theorem HasFirst.requote_eq_self (alone : HasFirst argument.toList value)
    (among : HasFirst ((requote argument).toList ++ rest) value) :
    requote argument = argument := by
  by_contra changed
  obtain ⟨before, behind, absent, split, needs, quoted⟩ := exists_of_requote_ne changed
  rw [split] at alone
  rw [quoted, List.append_assoc, List.cons_append] at among
  obtain ⟨written, after, rfl, writesValue, closed⟩ := alone.exists_value absent
  obtain ⟨again, further, same, writesAgain, -⟩ := among.exists_value absent
  rcases writesValue.eq_or_quoted with ⟨isWord, rfl⟩ | rfl
  · rcases writesAgain.eq_or_quoted with ⟨isWordAgain, -⟩ | rfl
    · obtain ⟨first, others, rfl⟩ := List.exists_cons_of_ne_nil isWordAgain.1
      have outside := isWordAgain.2 first List.mem_cons_self
      rw [← (List.cons.inj same).1] at outside
      cases outside
    · -- The value ends before the closing quote and goes on with a quote, or has a blank.
      have behind : after ++ '"' :: rest = '"' :: further := by simpa using same
      cases after with
      | nil =>
          obtain ⟨c, member, blank⟩ := needs.1
          rw [List.append_nil] at member
          exact Text.not_isWordChar_of_isBlank blank (isWord.2 c member)
      | cons c others => exact closed (congrArg some (List.cons.inj behind).1)
  · exact needs.2 rfl

/-- An argument that keeps its meaning among others is not put between quotes. -/
theorem Writes.requote_eq_self (alone : Writes argument.toList [expr])
    (among : Writes ((requote argument).toList ++ rest) (expr :: later)) :
    requote argument = argument := by
  by_contra changed
  obtain ⟨before, behind, -, split, -, quoted⟩ := exists_of_requote_ne changed
  obtain ⟨value, first, found⟩ := alone.exists_hasFirst (by simp [split])
  obtain ⟨other, again, foundAgain⟩ := among.exists_hasFirst (by simp [quoted])
  have here : expr.firstValue? = some value := by simpa [firstValue?] using found
  obtain rfl : value = other := by simpa [firstValue?, here] using foundAgain
  exact changed (first.requote_eq_self again)

end First

/-! ## What several arguments keep -/

section Kept

variable {arguments : List String} {exprs : List Expr}

theorem requote_eq_self_of_writes
    (each : List.Forall₂ (fun argument expr => Writes argument.toList [expr]) arguments exprs)
    (writes : Writes (" ".intercalate (arguments.map requote)).toList exprs) :
    ∀ argument ∈ arguments, requote argument = argument := by
  induction each with
  | nil => exact List.forall_mem_nil _
  | @cons argument expr others further alone _ induction =>
      cases others with
      | nil =>
          have among : Writes ((requote argument).toList ++ []) (expr :: further) := by
            simpa using writes
          exact List.forall_mem_singleton.mpr (alone.requote_eq_self among)
      | cons next others =>
          have blank : Text.isBlank ' ' := by decide
          have among : Writes
              ((requote argument).toList ++
                ' ' :: (" ".intercalate ((next :: others).map requote)).toList)
              (expr :: further) := by
            simpa [String.intercalate_cons_cons] using writes
          have kept := alone.requote_eq_self among
          rw [kept] at among
          have ends : EndsTest (' ' :: (" ".intercalate ((next :: others).map requote)).toList) :=
            .cons (by decide) (by decide) (by decide) _
          obtain ⟨later, same, rest⟩ := alone.of_append ends among
          obtain rfl : further = later := (List.cons.inj same).2
          exact List.forall_mem_cons.mpr ⟨kept, induction (rest.of_blank blank)⟩

theorem ofArguments_eq_ok_iff
    (each : List.Forall₂ (fun argument expr => ofArgument argument = .ok [expr]) arguments exprs) :
    ofArguments arguments = .ok exprs ↔ ∀ argument ∈ arguments, requote argument = argument := by
  have alone : List.Forall₂ (fun argument expr => Writes argument.toList [expr]) arguments exprs :=
    each.imp fun _ _ => ofArgument_eq_ok_iff.mp
  constructor
  · intro read
    rw [ofArguments, ofArgument_eq_ok_iff] at read
    exact requote_eq_self_of_writes alone read
  · intro kept
    have both := (List.forall₂_and_left _ _).mpr ⟨kept, alone⟩
    exact ofArguments_of_writes (both.imp fun _ _ ⟨same, writes⟩ => by rwa [same])

/-- Arguments that hold one expression each are read as these expressions, one after the other, if
no group among them is put between quotes.  A test that is put between quotes gets the blanks behind
its value into the value, so the expressions stay as they are exactly if nothing is put between
quotes. -/
theorem ofArguments_eq_among
    (each : List.Forall₂ (fun argument expr => ofArgument argument = .ok [expr]) arguments exprs)
    (groups : ∀ argument ∈ arguments, ∀ members, ofArgument argument = .ok [.group members] →
      requote argument = argument) :
    ofArguments arguments = .ok (List.zipWith Expr.among arguments exprs) ∧
      (ofArguments arguments = .ok exprs ↔
        ∀ argument ∈ arguments, requote argument = argument) := by
  refine ⟨ofArguments_of_writes ?_, ofArguments_eq_ok_iff each⟩
  induction each with
  | nil => exact .nil
  | @cons argument expr _ _ read _ induction =>
      obtain ⟨here, later⟩ := List.forall_mem_cons.mp groups
      refine .cons ?_ (induction later)
      have writes := ofArgument_eq_ok_iff.mp read
      cases expr with
      | test test => exact writes_requote writes
      | group members =>
          have kept := here members read
          rwa [Expr.among, if_pos kept, kept]

theorem ofArguments_three :
    ofArguments ["+a:b ", "[~c ~d]", "-e:\"f g\""] =
        .ok [.test ⟨.required, ["a"], some "b "⟩,
          .group [.test ⟨.included, ["c"], none⟩, .test ⟨.included, ["d"], none⟩],
          .test ⟨.excluded, ["e"], some "f g"⟩] ∧
      ofArguments ["+a:b ", "[~c ~d]", "-e:\"f g\""] ≠
        .ok [.test ⟨.required, ["a"], some "b"⟩,
          .group [.test ⟨.included, ["c"], none⟩, .test ⟨.included, ["d"], none⟩],
          .test ⟨.excluded, ["e"], some "f g"⟩] := by
  have first : ofArgument "+a:b " = .ok [.test ⟨.required, ["a"], some "b"⟩] := by
    decide +kernel
  have each : List.Forall₂ (fun argument expr => ofArgument argument = .ok [expr])
      ["+a:b ", "[~c ~d]", "-e:\"f g\""]
      [.test ⟨.required, ["a"], some "b"⟩,
        .group [.test ⟨.included, ["c"], none⟩, .test ⟨.included, ["d"], none⟩],
        .test ⟨.excluded, ["e"], some "f g"⟩] :=
    .cons first (.cons (by decide +kernel) (.cons (by decide +kernel) .nil))
  have kept : ∀ argument ∈ ["[~c ~d]", "-e:\"f g\""], requote argument = argument := by decide
  have groups : ∀ argument ∈ ["+a:b ", "[~c ~d]", "-e:\"f g\""], ∀ members,
      ofArgument argument = .ok [.group members] → requote argument = argument := by
    refine List.forall_mem_cons.mpr ⟨?_, fun argument member _ _ => kept argument member⟩
    intro members read
    cases first.symm.trans read
  obtain ⟨among, same⟩ := ofArguments_eq_among each groups
  exact ⟨among, mt same.mp (by decide)⟩

/-- The blanks behind a value get into the value, and a group can be torn apart. -/
theorem ofArguments_blank_and_group :
    ofArgument "+a:b " = .ok [.test ⟨.required, ["a"], some "b"⟩] ∧
      ofArguments ["+a:b "] = .ok [.test ⟨.required, ["a"], some "b "⟩] ∧
      ofArgument "[~a:b ~c]" =
        .ok [.group [.test ⟨.included, ["a"], some "b"⟩, .test ⟨.included, ["c"], none⟩]] ∧
      ofArguments ["[~a:b ~c]"] = .error ⟨"[~a:\"b ~c]\"", .unexpected 0⟩ := by
  decide +kernel

end Kept

end Query
end TagStore
