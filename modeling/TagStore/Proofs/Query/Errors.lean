import TagStore.Proofs.Query.Grammar
import TagStore.Proofs.Query.Views

/-!
# Where errors point

The reader stops with an error in front of the first character that is neither blank nor opens a
token, or of the first group whose contents are no query.  What stands before is a query, and it is
the longest beginning of the text that is one: whatever the grammar derives from a longer beginning
the reader would have passed over.
-/

namespace TagStore
namespace Query

open Search (lookahead)

theorem map_eq_error_iff {ε α β : Type} {f : α → β} {result : Except ε α} {error : ε} :
    result.map f = .error error ↔ result = .error error := by
  cases result with
  | error other => simp [Except.map]
  | ok a => simp [Except.map]

/-! ## Longer beginnings -/

/-- An error in what is left of a text is not before it. -/
theorem Lookahead.le_position {α : Type} (ahead : Lookahead α) {size : Nat} {text : List α}
    {error : ParseError} (failed : ahead.readView size text = .error error) :
    size - text.length ≤ error.position := by
  fun_induction ahead.readView size text generalizing error with
  | case1 => cases failed
  | case2 size head rest _ induction =>
      have later := induction failed
      rw [List.length_cons]
      omega
  | case3 =>
      cases failed
      exact Nat.le_refl _
  | case4 size head rest _ test after found induction =>
      have later := induction (map_eq_error_iff.mp failed)
      have shorter := ahead.length_readToken_le found
      rw [List.length_cons]
      omega
  | case5 =>
      cases failed
      exact Nat.le_refl _
  | case6 size head rest _ contents after found exprs _ _ induction =>
      have later := induction (map_eq_error_iff.mp failed)
      have shorter := ahead.length_readToken_le found
      rw [List.length_cons]
      omega

theorem IsWord.length_afterWord_le {word : List Char} (isWord : IsWord word) (rest : List Char) :
    (lookahead.afterWord (word ++ rest)).length ≤ rest.length := by
  have passed : lookahead.afterWord (word ++ rest) = lookahead.afterWord rest :=
    List.dropWhile_append_of_pos isWord.2
  rw [passed]
  exact lookahead.length_afterWord_le rest

theorem WritesValue.exists_readValue {written : List Char} {value : String}
    (writes : WritesValue written value) (rest : List Char) :
    ∃ longer after, lookahead.readValue (':' :: (written ++ rest)) = some (longer, after) ∧
      after.length ≤ rest.length := by
  cases writes with
  | bare isWord =>
      rw [readValue_colon, if_pos (isWord.startsWord rest)]
      exact ⟨_, _, rfl, isWord.length_afterWord_le rest⟩
  | quoted unquoted => exact ⟨_, _, readValue_quoted _ unquoted rest, Nat.le_refl _⟩

/-- A test that is written at the start of a text is read, if not as the whole of a longer one. -/
theorem WritesTest.exists_readToken {text : List Char} {test : TagTest}
    (writes : WritesTest text test) (rest : List Char) :
    ∃ head tail longer after, text = head :: tail ∧ ¬Text.isBlank head ∧
      lookahead.readToken head (tail ++ rest) = some (.test longer, after) ∧
      after.length ≤ rest.length := by
  have not_blank (kind : Kind) : ¬Text.isBlank kind.sign := by cases kind <;> decide
  have token (kind : Kind) (text : List Char) : lookahead.readToken kind.sign text =
      (lookahead.readTest kind text).map fun (test, after) => (.test test, after) := by
    rw [Lookahead.readToken, if_neg (Kind.ofSign?_eq kind).1, (Kind.ofSign?_eq kind).2]
    rfl
  cases writes with
  | @path kind text path writes =>
      have shorter : (lookahead.afterPath (text ++ rest)).length ≤ rest.length := by
        rw [Lookahead.afterPath, writes.pathLength_append, List.length_drop, List.length_append]
        omega
      refine ⟨kind.sign, text, ?_⟩
      rw [token, Lookahead.readTest, if_pos (writes.startsWord rest)]
      cases found : lookahead.readValue (lookahead.afterPath (text ++ rest)) with
      | none => exact ⟨_, _, rfl, not_blank kind, rfl, shorter⟩
      | some read =>
          exact ⟨_, _, rfl, not_blank kind, rfl,
            Nat.le_trans (lookahead.length_readValue_le found) shorter⟩
  | @value kind text written path value writes writesValue =>
      have ends : EndsPath (':' :: (written ++ rest)) := .cons (by decide) (by decide) _
      obtain ⟨longer, after, found, shorter⟩ := writesValue.exists_readValue rest
      refine ⟨kind.sign, text ++ ':' :: written, ?_⟩
      rw [List.append_assoc, List.cons_append, token, Lookahead.readTest,
        if_pos (writes.startsWord _), writes.afterPath ends, found]
      exact ⟨_, _, rfl, not_blank kind, rfl, shorter⟩

/-- An error behind the text of a query is not before its end. -/
theorem Writes.le_position {text rest : List Char} {query : Query} (writes : Writes text query)
    {size : Nat} {error : ParseError}
    (failed : lookahead.readView size (text ++ rest) = .error error) :
    size - rest.length ≤ error.position := by
  induction writes generalizing error with
  | nil => exact lookahead.le_position failed
  | blank blank _ induction =>
      rw [List.cons_append, lookahead.readView_blank size _ blank] at failed
      exact induction failed
  | @test written later test query writes further induction =>
      rw [List.append_assoc] at failed
      by_cases last : later = []
      · obtain ⟨head, tail, longer, after, rfl, not_blank, read, shorter⟩ :=
          writes.exists_readToken rest
        rw [last, List.nil_append, List.cons_append, lookahead.readView_test size not_blank read,
          map_eq_error_iff] at failed
        have behind := lookahead.le_position failed
        omega
      · obtain ⟨head, tail, rfl, not_blank, read⟩ :=
          writes.readToken (further.endsTest.append last rest)
        rw [List.cons_append, lookahead.readView_test size not_blank read, map_eq_error_iff]
          at failed
        exact induction failed
  | @group contents later exprs query inner _ _ induction =>
      have whole : '[' :: (contents ++ ']' :: later) ++ rest =
          '[' :: (contents ++ ']' :: (later ++ rest)) := by simp
      rw [whole, lookahead.readView_group size (by decide) (inner.readToken_group (later ++ rest))
        (inner.readView contents.length), map_eq_error_iff] at failed
      exact induction failed

/-! ## Marks and positions -/

namespace Mark

theorem position_of_getElem?_marksFrom {start hidden index : Nat} {afterColon : Bool}
    {text : List Char} {mark : Mark}
    (found : (marksFrom start afterColon hidden text)[index]? = some mark) :
    mark.position = start + index := by
  induction text generalizing start hidden index afterColon with
  | nil => cases found
  | cons c rest induction =>
      obtain ⟨closing, later, split⟩ := exists_marksFrom_cons start hidden afterColon c rest
      rw [split] at found
      cases index with
      | zero =>
          cases found
          rfl
      | succ index =>
          rw [List.getElem?_cons_succ] at found
          rw [induction found]
          omega

theorem le_of_mem_closings {start position : Nat} {shown : List (Char × Bool)}
    (member : position ∈ (closings start shown).2) : start ≤ position := by
  induction shown generalizing start with
  | nil => cases member
  | cons head rest induction =>
      have later (member : position ∈ (closings (start + 1) rest).2) : start ≤ position :=
        Nat.le_of_succ_le (induction member)
      simp only [closings] at member
      split at member
      · rcases List.mem_cons.mp member with rfl | member
        · exact Nat.le_refl _
        · exact later member
      · split at member
        · exact later (List.mem_of_mem_tail member)
        · exact later member

/-- A bracket is marked with one that stands after it. -/
theorem lt_closing_of_mem_marksFrom {start hidden closing : Nat} {afterColon : Bool}
    {text : List Char} {mark : Mark} (member : mark ∈ marksFrom start afterColon hidden text)
    (marked : mark.closing = some closing) : mark.position < closing := by
  induction text generalizing start hidden afterColon with
  | nil => cases member
  | cons c rest induction =>
      cases hidden with
      | succ hidden =>
          rw [marksFrom_hidden] at member
          rcases List.mem_cons.mp member with rfl | member
          · cases marked
          · exact induction member
      | zero =>
          rw [marksFrom_shown] at member
          rcases List.mem_cons.mp member with rfl | member
          · simp only [Option.ite_none_right_eq_some] at marked
            exact le_of_mem_closings (List.mem_of_mem_head? marked.2)
          · exact induction member

/-! ## Where the reader stops -/

/-- The reader goes no further than a character. -/
inductive Stops (size : Nat) (head : Mark) (after : List Mark) : ParseError → Prop
  /-- The character opens no token. -/
  | unexpected : lookahead.readToken head after = none →
      Stops size head after (.unexpected (size - (after.length + 1)))
  /-- It opens a group whose contents are no query. -/
  | inGroup {contents later : List Mark} {cause : ParseError} :
      lookahead.readToken head after = some (.group contents, later) →
      lookahead.read contents = .error cause →
      Stops size head after (.inGroup (size - (after.length + 1)) cause)

/-- A test that is read is written in front of what is left. -/
theorem writes_of_readToken_test {head : Mark} {rest after : List Mark} {test : TagTest}
    (sighted : Sighted rest) (paired : Paired false (head :: rest))
    (read : lookahead.readToken head rest = some (.test test, after)) :
    ∃ front, head :: rest = front ++ after ∧ WritesTest (front.map char) test := by
  obtain ⟨front, split⟩ := lookahead.suffix_of_readToken read
  have same := readToken_map sighted paired
  rw [read] at same
  obtain ⟨written, chars, writes⟩ := Query.writes_of_readToken_test same
  rw [← List.map_cons, ← split, List.map_append] at chars
  rw [← List.append_cancel_right chars] at writes
  exact ⟨front, split.symm, writes⟩

/-- A group that is read stands in brackets in front of what is left. -/
theorem split_of_readToken_group {head : Mark} {rest contents after : List Mark}
    (sighted : Sighted rest) (paired : Paired false (head :: rest))
    (read : lookahead.readToken head rest = some (.group contents, after)) :
    ∃ front, head :: rest = front ++ after ∧
      front.map char = '[' :: (contents.map char ++ [']']) := by
  obtain ⟨front, split⟩ := lookahead.suffix_of_readToken read
  have same := readToken_map sighted paired
  rw [read] at same
  obtain ⟨opens, chars⟩ := Query.split_of_readToken_group same
  have whole : front.map char ++ after.map char =
      '[' :: (contents.map char ++ [']']) ++ after.map char := by
    rw [← List.map_append, split, List.map_cons, opens, chars]
    simp
  exact ⟨front, split.symm, List.append_cancel_right whole⟩

theorem writes_of_read {view : List Mark} {query : Query} (sighted : Sighted view)
    (paired : Paired false view) (read : lookahead.read view = .ok query) :
    Writes (view.map char) query := by
  rw [read_eq_parse sighted paired, parse_eq_ok_iff, Lookahead.spell, String.toList_ofList] at read
  exact read

/-- When reading fails, a query has been read up to the character where the reader stops. -/
theorem exists_stops {size : Nat} {view : List Mark} {error : ParseError} (sighted : Sighted view)
    (paired : Paired false view) (failed : lookahead.readView size view = .error error) :
    ∃ before head after query, view = before ++ head :: after ∧ Writes (before.map char) query ∧
      ¬Text.isBlank head.char ∧ Sighted after ∧ Paired false (head :: after) ∧
      Stops size head after error := by
  fun_induction lookahead.readView size view generalizing error with
  | case1 => cases failed
  | case2 size head rest blank induction =>
      obtain ⟨before, stop, after, query, rfl, writes, found⟩ :=
        induction (sighted.drop 1) (paired.afterBlank blank) failed
      exact ⟨head :: before, stop, after, query, rfl, .blank blank writes, found⟩
  | case3 size head rest not_blank found =>
      cases failed
      exact ⟨[], head, rest, [], rfl, .nil, not_blank, sighted.drop 1, paired, .unexpected found⟩
  | case4 size head rest not_blank test after found induction =>
      have later : Sighted rest := sighted.drop 1
      obtain ⟨⟨after_paired, after_sighted⟩, -⟩ := paired.afterToken later found
      obtain ⟨before, stop, behind, query, rfl, writes, stops⟩ :=
        induction after_sighted after_paired (map_eq_error_iff.mp failed)
      obtain ⟨front, split, writesTest⟩ := writes_of_readToken_test later paired found
      refine ⟨front ++ before, stop, behind, .test test :: query, ?_, ?_, stops⟩
      · rw [split, List.append_assoc]
      · rw [List.map_append]
        exact .test writesTest writes
  | case5 size head rest not_blank contents after found cause inner =>
      cases failed
      exact ⟨[], head, rest, [], rfl, .nil, not_blank, sighted.drop 1, paired,
        .inGroup found inner⟩
  | case6 size head rest not_blank contents after found exprs inner _ induction =>
      have later : Sighted rest := sighted.drop 1
      obtain ⟨⟨after_paired, after_sighted⟩, within⟩ := paired.afterToken later found
      obtain ⟨contents_paired, contents_sighted⟩ := within contents rfl
      obtain ⟨before, stop, behind, query, rfl, writes, stops⟩ :=
        induction after_sighted after_paired (map_eq_error_iff.mp failed)
      obtain ⟨front, split, brackets⟩ := split_of_readToken_group later paired found
      have inside := writes_of_read contents_sighted contents_paired inner
      refine ⟨front ++ before, stop, behind, .group exprs :: query, ?_, ?_, stops⟩
      · rw [split, List.append_assoc]
      · rw [List.map_append, brackets]
        simpa using Writes.group inside writes

/-! ## Groups that are marked -/

/-- A bracket that is marked with its partner opens a group. -/
theorem readToken_of_closing {head : Mark} {after : List Mark} {closing : Nat}
    (paired : Paired false (head :: after)) (opens : head.char = '[')
    (marked : head.closing = some closing) :
    ∃ partner later, after.drop (closing - (head.position + 1)) = partner :: later ∧
      partner.char = ']' ∧ lookahead.readToken head after =
        some (.group (after.take (closing - (head.position + 1))), later) := by
  have inside : lookahead.inside head after = some (closing - (head.position + 1)) :=
    congrArg (Option.map _) marked
  have searched : Search.inside 0 false (after.map char) =
      some (closing - (head.position + 1)) := by
    cases paired with
    | opening _ agrees => exact agrees.symm.trans inside
    | skip skip => exact absurd ((Search.skipped_eq_some_iff.mp skip).1 ▸ opens) (by decide)
    | step not_opening => exact absurd opens not_opening
  have closes := Search.drop_of_inside searched
  rw [← List.map_drop, List.map_eq_cons_iff] at closes
  obtain ⟨partner, later, split, isClosing, -⟩ := closes
  refine ⟨partner, later, split, isClosing, ?_⟩
  have isOpening : lookahead.char head = '[' := opens
  rw [Lookahead.readToken, if_pos isOpening, inside, Option.bind_some, split]

theorem closing_of_readToken_group {head : Mark} {after contents later : List Mark}
    (read : lookahead.readToken head after = some (.group contents, later)) :
    head.char = '[' ∧ ∃ closing, head.closing = some closing := by
  rw [Lookahead.readToken] at read
  split at read
  · rename_i opens
    obtain ⟨size, inside, -⟩ := Option.bind_eq_some_iff.mp read
    obtain ⟨closing, marked, -⟩ := Option.map_eq_some_iff.mp inside
    exact ⟨opens, closing, marked⟩
  · obtain ⟨kind, _, found⟩ := Option.bind_eq_some_iff.mp read
    obtain ⟨⟨_, _⟩, _, same⟩ := Option.map_eq_some_iff.mp found
    cases same

theorem Stops.cause?_isSome_iff {size : Nat} {head : Mark} {after : List Mark} {error : ParseError}
    (stops : Stops size head after error) (paired : Paired false (head :: after)) :
    error.cause?.isSome ↔ head.char = '[' ∧ ∃ closing, head.closing = some closing := by
  cases stops with
  | unexpected none =>
      refine iff_of_false Bool.false_ne_true fun ⟨opens, closing, marked⟩ => ?_
      obtain ⟨_, _, _, _, read⟩ := readToken_of_closing paired opens marked
      cases none.symm.trans read
  | inGroup read => exact iff_of_true rfl (closing_of_readToken_group read)

theorem Stops.position_eq {size : Nat} {head : Mark} {after : List Mark} {error : ParseError}
    (stops : Stops size head after error) : error.position = size - (after.length + 1) := by
  cases stops <;> rfl

/-- The cause of an error is the error of the contents as a query of their own. -/
theorem Stops.cause?_eq {size closing : Nat} {head : Mark} {after : List Mark} {error : ParseError}
    (stops : Stops size head after error) (sighted : Sighted after)
    (paired : Paired false (head :: after)) (opens : head.char = '[')
    (marked : head.closing = some closing) :
    ∃ cause, error.cause? = some cause ∧
      parse (lookahead.spell (after.take (closing - (head.position + 1)))) = .error cause := by
  obtain ⟨_, _, _, _, read⟩ := readToken_of_closing paired opens marked
  cases stops with
  | unexpected none => cases none.symm.trans read
  | inGroup found failed =>
      cases found.symm.trans read
      obtain ⟨-, within⟩ := paired.afterToken sighted read
      obtain ⟨contents_paired, contents_sighted⟩ := within _ rfl
      exact ⟨_, rfl, (read_eq_parse contents_sighted contents_paired).symm.trans failed⟩

end Mark

/-! ## Errors of texts -/

/-- The reader pairs the opening bracket at a position of a text with the closing bracket at another
one. -/
def Pairs (text : String) (opening closing : Nat) : Prop :=
  ∃ mark, (Mark.ofText text.toList)[opening]? = some mark ∧ mark.char = '[' ∧
    mark.closing = some closing

/-- The part of a text strictly between two positions. -/
def between (text : String) (first last : Nat) : String :=
  String.ofList ((text.toList.take last).drop (first + 1))

/-- An error points through opening brackets, each in the contents of the one before, at a character
that belongs to no expression: a query ends before it, and no query begins with it. -/
inductive PointsInto : List Char → ParseError → Prop
  /-- The character itself. -/
  | unexpected {before after : List Char} {c : Char} {query : Query} : Writes before query →
      ¬Text.isBlank c → (∀ length query, ¬Writes (c :: after.take length) query) →
      PointsInto (before ++ c :: after) (.unexpected before.length)
  /-- The bracket of a group that has it inside. -/
  | inGroup {before contents after : List Char} {query : Query} {cause : ParseError} :
      Writes before query → PointsInto contents cause →
      PointsInto (before ++ '[' :: (contents ++ ']' :: after)) (.inGroup before.length cause)

variable {text : String} {error : ParseError}

/-- No beginning of a text that goes beyond an error is a query. -/
theorem not_writes_take (failed : parse text = .error error) {length : Nat}
    (beyond : error.position < length) (query : Query) :
    ¬Writes (text.toList.take length) query := by
  intro writes
  by_cases within : length ≤ text.toList.length
  · have whole : lookahead.readView text.toList.length
        (text.toList.take length ++ text.toList.drop length) = .error error := by
      rw [List.take_append_drop]
      exact (parse_eq_read text).symm.trans failed
    have behind := writes.le_position whole
    rw [List.length_drop] at behind
    omega
  · rw [List.take_of_length_le (by omega), ← parse_eq_ok_iff, failed] at writes
    cases writes

theorem take_map_char_ofText {before : List Mark} {head : Mark} {after : List Mark}
    (split : Mark.ofText text.toList = before ++ head :: after) :
    text.toList = before.map Mark.char ++ head.char :: after.map Mark.char := by
  have chars : (Mark.ofText text.toList).map Mark.char = text.toList :=
    Mark.map_char_marksFrom 0 0 false text.toList
  rw [← chars, split, List.map_append, List.map_cons]

/-- When a text is no query, a query has been read up to the mark where the error is. -/
theorem exists_stop (failed : parse text = .error error) :
    ∃ before head after query, Mark.ofText text.toList = before ++ head :: after ∧
      Writes (before.map Mark.char) query ∧ ¬Text.isBlank head.char ∧ Mark.Sighted after ∧
      Mark.Paired false (head :: after) ∧ error.position = before.length ∧
      head.position = before.length ∧
      Mark.Stops (Mark.ofText text.toList).length head after error := by
  obtain ⟨before, head, after, query, split, writes, not_blank, sighted, paired, stops⟩ :=
    Mark.exists_stops (Mark.sighted_ofText text.toList) (Mark.paired_ofText text.toList) failed
  refine ⟨before, head, after, query, split, writes, not_blank, sighted, paired, ?_, ?_, stops⟩
  · rw [stops.position_eq, split, List.length_append, List.length_cons]
    omega
  · have found : (Mark.ofText text.toList)[before.length]? = some head := by simp [split]
    rw [Mark.ofText_eq] at found
    rw [Mark.position_of_getElem?_marksFrom found, Nat.zero_add]

/-- Between a bracket and its partner stand the contents of the group. -/
theorem between_eq {before : List Mark} {head : Mark} {after : List Mark}
    (split : Mark.ofText text.toList = before ++ head :: after) (closing : Nat) :
    between text before.length closing =
      Mark.lookahead.spell (after.take (closing - (before.length + 1))) := by
  have behind : text.toList.drop (before.length + 1) = after.map Mark.char := by
    rw [take_map_char_ofText split, List.append_cons]
    exact List.drop_left' (by simp)
  rw [between, List.drop_take, behind, ← List.map_take]
  rfl

/-- The first of a chain of errors: where it points, and what its cause says of the group there. -/
theorem error_of_group (failed : parse text = .error error) {closing : Nat}
    (pairs : Pairs text error.position closing) :
    error.position < closing ∧ text.toList[closing]? = some ']' ∧
      ∃ cause, error.cause? = some cause ∧
        parse (between text error.position closing) = .error cause := by
  obtain ⟨before, head, after, query, split, -, -, sighted, paired, position, place, stops⟩ :=
    exists_stop failed
  obtain ⟨mark, found, opens, marked⟩ := pairs
  rw [position, split, List.getElem?_append_right (Nat.le_refl _), Nat.sub_self] at found
  cases found
  have member : head ∈ Mark.ofText text.toList := by simp [split]
  have later : head.position < closing := Mark.lt_closing_of_mem_marksFrom member marked
  obtain ⟨partner, _, partner_split, isClosing, -⟩ := Mark.readToken_of_closing paired opens marked
  rw [position, between_eq split, ← place]
  refine ⟨later, ?_, stops.cause?_eq sighted paired opens marked⟩
  have reached : after[closing - (head.position + 1)]? = some partner := by
    rw [← List.head?_drop, partner_split, List.head?_cons]
  have whole : text.toList[closing]? = (after[closing - (head.position + 1)]?).map Mark.char := by
    rw [take_map_char_ofText split, List.append_cons, List.getElem?_append_right, List.getElem?_map]
    · simp [place]
    · simp
      omega
  rw [whole, reached, Option.map_some, isClosing]

theorem cause?_isSome_iff (failed : parse text = .error error) :
    error.cause?.isSome ↔ ∃ closing, Pairs text error.position closing := by
  obtain ⟨before, head, after, query, split, -, -, -, paired, position, -, stops⟩ :=
    exists_stop failed
  have found : (Mark.ofText text.toList)[before.length]? = some head := by simp [split]
  rw [stops.cause?_isSome_iff paired, position]
  constructor
  · rintro ⟨opens, closing, marked⟩
    exact ⟨closing, head, found, opens, marked⟩
  · rintro ⟨closing, mark, there, opens, marked⟩
    cases found.symm.trans there
    exact ⟨opens, closing, marked⟩

/-- A bracket and its partner stand around the text between them. -/
theorem split_of_pairs {opening closing : Nat} (pairs : Pairs text opening closing)
    (later : opening < closing) (closes : text.toList[closing]? = some ']') :
    text.toList = text.toList.take opening ++
      '[' :: ((between text opening closing).toList ++ ']' :: text.toList.drop (closing + 1)) := by
  obtain ⟨mark, found, opens, -⟩ := pairs
  have opens : text.toList[opening]? = some '[' := by
    rw [← Mark.map_char_marksFrom 0 0 false text.toList, List.getElem?_map, ← Mark.ofText_eq, found,
      Option.map_some, opens]
  obtain ⟨inside, first⟩ := List.getElem?_eq_some_iff.mp opens
  obtain ⟨within, last⟩ := List.getElem?_eq_some_iff.mp closes
  have behind : text.toList.drop closing = ']' :: text.toList.drop (closing + 1) := by
    rw [List.drop_eq_getElem_cons within, last]
  have contents : (between text opening closing).toList ++ ']' :: text.toList.drop (closing + 1) =
      text.toList.drop (opening + 1) := by
    rw [between, String.toList_ofList, ← behind, List.drop_take]
    have whole := List.take_append_drop (closing - (opening + 1)) (text.toList.drop (opening + 1))
    rwa [List.drop_drop, Nat.add_sub_cancel' later] at whole
  rw [contents, ← first, List.getElem_cons_drop, List.take_append_drop]

/-- By induction on the error: its cause is the error of a shorter text. -/
theorem pointsInto_of_parse (failed : parse text = .error error) :
    PointsInto text.toList error := by
  induction error generalizing text with
  | unexpected place =>
      obtain ⟨before, head, after, query, split, writes, not_blank, -, -, position, -, -⟩ :=
        exists_stop failed
      have chars := take_map_char_ofText split
      have place_eq : place = (before.map Mark.char).length := by
        rw [List.length_map]
        exact position
      rw [chars, place_eq]
      refine .unexpected writes not_blank fun length further begins => ?_
      have longer : text.toList.take (place + (length + 1)) =
          before.map Mark.char ++ head.char :: (after.map Mark.char).take length := by
        rw [chars, place_eq, List.take_length_add_append, List.take_succ_cons]
      have beyond : (ParseError.unexpected place).position < place + (length + 1) :=
        Nat.lt_add_of_pos_right (Nat.succ_pos length)
      exact not_writes_take failed beyond _ (longer ▸ writes.append begins)
  | inGroup place cause induction =>
      obtain ⟨before, head, after, query, split, writes, -, -, -, position, -, -⟩ :=
        exists_stop failed
      obtain rfl : place = (before.map Mark.char).length := by
        rw [List.length_map]
        exact position
      obtain ⟨closing, pairs⟩ := (cause?_isSome_iff failed).mp rfl
      obtain ⟨later, closes, _, same, inner⟩ := error_of_group failed pairs
      cases same
      have front : text.toList.take (before.map Mark.char).length = before.map Mark.char := by
        rw [take_map_char_ofText split, List.take_left]
      rw [split_of_pairs pairs later closes]
      exact front.symm ▸ .inGroup writes (induction inner)

/-- An error is at a character right behind the longest beginning of the text that is a query.  It
has a cause exactly if the character is a bracket with a partner, and the cause is the error of the
text between the two.  Hence the errors of a chain point at brackets, one in the other, and the last
one at a character of no expression. -/
theorem parse_error_after_longest_query (failed : parse text = .error error) :
    (∃ c, text.toList[error.position]? = some c ∧ ¬Text.isBlank c) ∧
      (∃ query, parse (String.ofList (text.toList.take error.position)) = .ok query) ∧
      (∀ length query, error.position < length →
        parse (String.ofList (text.toList.take length)) ≠ .ok query) ∧
      (error.cause?.isSome ↔ ∃ closing, Pairs text error.position closing) ∧
      (∀ closing, Pairs text error.position closing →
        error.position < closing ∧ text.toList[closing]? = some ']' ∧
          ∃ cause, error.cause? = some cause ∧
            parse (between text error.position closing) = .error cause) ∧
      PointsInto text.toList error := by
  refine ⟨?_, ?_, ?_, cause?_isSome_iff failed, fun closing => error_of_group failed,
    pointsInto_of_parse failed⟩
  · obtain ⟨before, head, after, query, split, -, not_blank, -, -, position, -, -⟩ :=
      exists_stop failed
    exact ⟨head.char, by simp [take_map_char_ofText split, position], not_blank⟩
  · obtain ⟨before, head, after, query, split, writes, -, -, -, position, -, -⟩ :=
      exists_stop failed
    refine ⟨query, parse_eq_ok_iff.mpr ?_⟩
    simpa [take_map_char_ofText split, position] using writes
  · intro length query beyond read
    rw [parse_eq_ok_iff, String.toList_ofList] at read
    exact not_writes_take failed beyond query read

theorem parse_error_in_nested_groups :
    parse "+a [ [+b ]x]]" = .error (.inGroup 3 (.unexpected 6)) ∧
      PointsInto "+a [ [+b ]x]]".toList (.inGroup 3 (.unexpected 6)) := by
  have stop : (match parse "+a [ [+b ]x]]" with
      | .ok _ => none
      | .error error => some error) = some (.inGroup 3 (.unexpected 6)) := by decide +kernel
  have failed : parse "+a [ [+b ]x]]" = .error (.inGroup 3 (.unexpected 6)) := by
    split at stop
    · cases stop
    · cases stop
      assumption
  exact ⟨failed, (parse_error_after_longest_query failed).2.2.2.2.2⟩

end Query
end TagStore
