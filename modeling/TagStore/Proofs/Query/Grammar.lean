import TagStore.Proofs.Query.Marking
import TagStore.Query.Grammar
import Mathlib.Data.List.Forall2

/-!
# Reading and the grammar

The reader accepts exactly the texts that the grammar derives, with the query that they write.  For
soundness each reading step is a production.  For completeness, what follows a test in a query never
goes on with the test, and a search for a bracket passes over everything that a query writes.
-/

namespace TagStore
namespace Query

open Search (lookahead)

/-! ## Words and paths -/

theorem spell_eq (text : List Char) : lookahead.spell text = String.ofList text :=
  congrArg String.ofList (List.map_id text)

theorem IsWord.not_mem {word : List Char} (isWord : IsWord word) {c : Char}
    (outside : ¬Text.isWordChar c) : c ∉ word :=
  fun member => outside (isWord.2 c member)

theorem WritesPath.pieces_eq {text : List Char} {path : List String}
    (writes : WritesPath text path) :
    Text.pieces '.' (String.ofList text) = path := by
  induction writes with
  | word isWord => exact Text.pieces_of_not_mem (isWord.not_mem (by decide))
  | dot isWord _ induction => rw [Text.pieces_append (isWord.not_mem (by decide)), induction]

theorem WritesPath.cons {text : List Char} {path : List String} (writes : WritesPath text path)
    {c : Char} (isWordChar : Text.isWordChar c) : ∃ longer, WritesPath (c :: text) longer := by
  have extend {word : List Char} (isWord : IsWord word) : IsWord (c :: word) :=
    ⟨by simp, List.forall_mem_cons.mpr ⟨isWordChar, isWord.2⟩⟩
  cases writes with
  | word isWord => exact ⟨_, .word (extend isWord)⟩
  | dot isWord writes => exact ⟨_, .dot (extend isWord) writes⟩

theorem isWord_singleton {c : Char} (isWordChar : Text.isWordChar c) : IsWord [c] :=
  ⟨by simp, by simpa using isWordChar⟩

theorem exists_writesPath {text : List Char} (starts : lookahead.startsWord text) :
    ∃ path, WritesPath (text.take (lookahead.pathLength text)) path := by
  match text with
  | [] => cases starts
  | head :: rest =>
      have isWordChar : Text.isWordChar head = true := starts
      have longer : lookahead.pathLength (head :: rest) = lookahead.pathLength rest + 1 :=
        if_pos (Bool.or_eq_true_iff.mpr (.inl isWordChar))
      rw [longer, List.take_succ_cons]
      match rest with
      | [] => exact ⟨_, .word (isWord_singleton isWordChar)⟩
      | next :: tail =>
          by_cases nextWord : Text.isWordChar next
          · have nextStarts : lookahead.startsWord (next :: tail) = true := nextWord
            obtain ⟨path, writes⟩ := exists_writesPath nextStarts
            exact writes.cons isWordChar
          · by_cases dotted : (next == '.' && lookahead.startsWord tail) = true
            · obtain ⟨isDot, tailStarts⟩ := Bool.and_eq_true_iff.mp dotted
              have further : lookahead.pathLength (next :: tail) = lookahead.pathLength tail + 1 :=
                if_pos (Bool.or_eq_true_iff.mpr (.inr dotted))
              obtain ⟨path, writes⟩ := exists_writesPath tailStarts
              rw [further, List.take_succ_cons, eq_of_beq isDot]
              exact ⟨_, .dot (isWord_singleton isWordChar) writes⟩
            · have ends : lookahead.pathLength (next :: tail) = 0 :=
                if_neg fun inPath => (Bool.or_eq_true_iff.mp inPath).elim nextWord dotted
              rw [ends]
              exact ⟨_, .word (isWord_singleton isWordChar)⟩
  termination_by text.length

theorem writesPath_take {text : List Char} (starts : lookahead.startsWord text) :
    WritesPath (text.take (lookahead.pathLength text)) (lookahead.path text) := by
  obtain ⟨path, writes⟩ := exists_writesPath starts
  have same := writes.pieces_eq
  rwa [Lookahead.path, spell_eq, same]

theorem isWord_word {text : List Char} (starts : lookahead.startsWord text) :
    IsWord (lookahead.word text) := by
  constructor
  · cases text with
    | nil => cases starts
    | cons head rest =>
        have isWordChar : Text.isWordChar (lookahead.char head) = true := starts
        rw [Lookahead.word, List.takeWhile_cons, if_pos isWordChar]
        exact List.cons_ne_nil _ _
  · intro c member
    exact List.all_eq_true.mp List.all_takeWhile c member

/-! ## Soundness -/

theorem writesValue_of_readQuoted {text after : List Char} {value : String}
    (read : lookahead.readQuoted text = some (value, after)) :
    ∃ written, text = written ++ after ∧ WritesValue written value := by
  match text with
  | [] => cases read
  | [_] => cases read
  | front :: first :: rest =>
      rw [Lookahead.readQuoted] at read
      split at read
      · rename_i isQuote
        obtain ⟨size, found, ends⟩ := Option.bind_eq_some_iff.mp read
        split at ends
        · cases ends
        · rename_i closing tail split
          cases ends
          obtain ⟨inside, closes, first_quote⟩ := List.findIdx?_eq_some_iff_getElem.mp found
          rw [List.drop_eq_getElem_cons inside] at split
          obtain ⟨rfl, tail_eq⟩ := List.cons.inj split
          have whole : rest = rest.take size ++ '"' :: after := by
            rw [← tail_eq, ← eq_of_beq closes, List.getElem_cons_drop, List.take_append_drop]
          have unquoted : '"' ∉ rest.take size := by
            intro member
            obtain ⟨position, before, same⟩ := List.mem_iff_getElem.mp member
            rw [List.length_take] at before
            rw [List.getElem_take] at same
            exact first_quote position (by omega) (beq_of_eq same)
          refine ⟨'"' :: first :: (rest.take size ++ ['"']), ?_, ?_⟩
          · rw [show front = '"' from isQuote]
            simpa using whole
          · rw [spell_eq]
            exact .quoted unquoted
      · cases read

theorem writesValue_of_readValue {text after : List Char} {value : String}
    (read : lookahead.readValue text = some (value, after)) :
    ∃ written, text = ':' :: (written ++ after) ∧ WritesValue written value := by
  cases text with
  | nil => cases read
  | cons colon rest =>
      rw [Lookahead.readValue] at read
      split at read
      · rename_i isColon
        obtain rfl : colon = ':' := isColon
        split at read
        · rename_i starts
          cases read
          refine ⟨lookahead.word rest, ?_, ?_⟩
          · exact congrArg _ List.takeWhile_append_dropWhile.symm
          · rw [spell_eq]
            exact .bare (isWord_word starts)
        · obtain ⟨written, rfl, writes⟩ := writesValue_of_readQuoted read
          exact ⟨written, rfl, writes⟩
      · cases read

theorem writesTest_of_readTest {kind : Kind} {text after : List Char} {test : TagTest}
    (read : lookahead.readTest kind text = some (test, after)) :
    ∃ written, kind.sign :: text = written ++ after ∧ WritesTest written test := by
  rw [Lookahead.readTest] at read
  split at read
  · rename_i starts
    have path := writesPath_take starts
    have whole : text.take (lookahead.pathLength text) ++ lookahead.afterPath text = text :=
      List.take_append_drop _ _
    split at read
    · rename_i value tail found
      cases read
      obtain ⟨written, split, writes⟩ := writesValue_of_readValue found
      refine ⟨_, ?_, .value path writes⟩
      rw [split] at whole
      simpa using whole.symm
    · cases read
      refine ⟨_, ?_, .path path⟩
      rw [List.cons_append, whole]
  · cases read

theorem writes_of_readToken_test {head : Char} {rest after : List Char} {test : TagTest}
    (read : lookahead.readToken head rest = some (.test test, after)) :
    ∃ written, head :: rest = written ++ after ∧ WritesTest written test := by
  rw [Lookahead.readToken] at read
  split at read
  · obtain ⟨size, _, found⟩ := Option.bind_eq_some_iff.mp read
    split at found <;> cases found
  · obtain ⟨kind, sign, found⟩ := Option.bind_eq_some_iff.mp read
    obtain ⟨⟨_, _⟩, whole, same⟩ := Option.map_eq_some_iff.mp found
    cases same
    rw [show head = kind.sign from Kind.eq_sign_of_ofSign? sign]
    exact writesTest_of_readTest whole

theorem split_of_readToken_group {head : Char} {rest contents after : List Char}
    (read : lookahead.readToken head rest = some (.group contents, after)) :
    head = '[' ∧ rest = contents ++ ']' :: after := by
  obtain ⟨opens, size, closing, marked, rfl, split⟩ := lookahead.exists_of_readToken_group read
  refine ⟨opens, ?_⟩
  have closes := Search.drop_of_inside (show Search.inside 0 false rest = some size from marked)
  rw [split] at closes
  rw [← (List.cons.inj closes).1, ← split, List.take_append_drop]

/-- What the reader accepts is derived by the grammar. -/
theorem writes_of_readView {size : Nat} {text : List Char} {query : Query}
    (read : lookahead.readView size text = .ok query) : Writes text query := by
  fun_induction lookahead.readView size text generalizing query with
  | case1 =>
      cases read
      exact .nil
  | case2 size head rest blank induction => exact .blank blank (induction read)
  | case3 => cases read
  | case4 size head rest not_blank test after found induction =>
      obtain ⟨later, read_after, rfl⟩ := map_eq_ok_iff.mp read
      obtain ⟨written, split, writes⟩ := writes_of_readToken_test found
      rw [split]
      exact .test writes (induction read_after)
  | case5 => cases read
  | case6 size head rest not_blank contents after found exprs inner induction induction_after =>
      obtain ⟨later, read_after, rfl⟩ := map_eq_ok_iff.mp read
      obtain ⟨rfl, rfl⟩ := split_of_readToken_group found
      exact .group (induction inner) (induction_after read_after)

/-! ## Completeness -/

/-- A text that cannot go on with a path that stands before it. -/
def EndsPath (text : List Char) : Prop :=
  ∀ head ∈ text.head?, ¬Text.isWordChar head ∧ head ≠ '.'

/-- A text that cannot go on with a test that stands before it. -/
def EndsTest (text : List Char) : Prop := EndsPath text ∧ ':' ∉ text.head?

theorem EndsPath.cons {c : Char} (not_word : ¬Text.isWordChar c) (not_dot : c ≠ '.')
    (rest : List Char) : EndsPath (c :: rest) := by
  rintro _ ⟨⟩
  exact ⟨not_word, not_dot⟩

theorem EndsPath.pathLength {text : List Char} (ends : EndsPath text) :
    lookahead.pathLength text = 0 := by
  cases text with
  | nil => rfl
  | cons head rest =>
      obtain ⟨not_word, not_dot⟩ := ends head rfl
      refine if_neg fun inPath => ?_
      rcases Bool.or_eq_true_iff.mp inPath with word | dot
      · exact not_word word
      · exact not_dot (eq_of_beq (Bool.and_eq_true_iff.mp dot).1)

theorem EndsTest.readValue {text : List Char} (ends : EndsTest text) :
    lookahead.readValue text = none := by
  cases text with
  | nil => rfl
  | cons head rest => exact if_neg fun isColon => ends.2 (congrArg some isColon)

theorem IsWord.startsWord {word : List Char} (isWord : IsWord word) (rest : List Char) :
    lookahead.startsWord (word ++ rest) = true := by
  cases word with
  | nil => exact absurd rfl isWord.1
  | cons head tail => exact isWord.2 head List.mem_cons_self

theorem WritesPath.startsWord {text : List Char} {path : List String}
    (writes : WritesPath text path) (rest : List Char) :
    lookahead.startsWord (text ++ rest) = true := by
  cases writes with
  | word isWord => exact isWord.startsWord rest
  | dot isWord _ =>
      rw [List.append_assoc]
      exact isWord.startsWord _

/-- The path that begins a text takes all of a path written there and goes on with what follows. -/
theorem WritesPath.pathLength_append {text : List Char} {path : List String}
    (writes : WritesPath text path) (rest : List Char) :
    lookahead.pathLength (text ++ rest) = text.length + lookahead.pathLength rest := by
  induction writes with
  | word isWord => exact lookahead.pathLength_word_append isWord.2 rest
  | @dot word tail _ isWord writes induction =>
      have dotted : lookahead.pathLength ('.' :: (tail ++ rest)) =
          lookahead.pathLength (tail ++ rest) + 1 :=
        if_pos (Bool.or_eq_true_iff.mpr (.inr (writes.startsWord rest)))
      rw [List.append_assoc, lookahead.pathLength_word_append isWord.2, List.cons_append, dotted,
        induction, List.length_append, List.length_cons]
      omega

theorem WritesPath.pathLength {text rest : List Char} {path : List String}
    (writes : WritesPath text path) (ends : EndsPath rest) :
    lookahead.pathLength (text ++ rest) = text.length := by
  rw [writes.pathLength_append, ends.pathLength, Nat.add_zero]

theorem WritesPath.path_append {text rest : List Char} {path : List String}
    (writes : WritesPath text path) (ends : EndsPath rest) :
    lookahead.path (text ++ rest) = path := by
  rw [Lookahead.path, writes.pathLength ends, List.take_left, spell_eq, writes.pieces_eq]

theorem WritesPath.afterPath {text rest : List Char} {path : List String}
    (writes : WritesPath text path) (ends : EndsPath rest) :
    lookahead.afterPath (text ++ rest) = rest := by
  rw [Lookahead.afterPath, writes.pathLength ends, List.drop_left]

theorem EndsPath.word {text : List Char} (ends : EndsPath text) : lookahead.word text = [] := by
  cases text with
  | nil => rfl
  | cons head rest => exact List.takeWhile_cons_of_neg (ends head rfl).1

theorem EndsPath.afterWord {text : List Char} (ends : EndsPath text) :
    lookahead.afterWord text = text := by
  cases text with
  | nil => rfl
  | cons head rest => exact List.dropWhile_cons_of_neg (ends head rfl).1

theorem IsWord.word_append {word rest : List Char} (isWord : IsWord word) (ends : EndsPath rest) :
    lookahead.word (word ++ rest) = word := by
  have none := ends.word
  rw [Lookahead.word] at none ⊢
  rw [List.takeWhile_append_of_pos (p := fun c => Text.isWordChar (lookahead.char c)) isWord.2,
    none,
    List.append_nil]

theorem IsWord.afterWord_append {word rest : List Char} (isWord : IsWord word)
    (ends : EndsPath rest) : lookahead.afterWord (word ++ rest) = rest := by
  have all := ends.afterWord
  rw [Lookahead.afterWord] at all ⊢
  rw [List.dropWhile_append_of_pos (p := fun c => Text.isWordChar (lookahead.char c)) isWord.2, all]

theorem readValue_colon (text : List Char) :
    lookahead.readValue (':' :: text) =
      if lookahead.startsWord text then
        some (lookahead.spell (lookahead.word text), lookahead.afterWord text)
      else lookahead.readQuoted text := rfl

theorem readValue_quoted (first : Char) {text : List Char} (unquoted : '"' ∉ text)
    (rest : List Char) :
    lookahead.readValue (':' :: ('"' :: first :: (text ++ ['"']) ++ rest)) =
      some (String.ofList (first :: text), rest) := by
  have whole : '"' :: first :: (text ++ ['"']) ++ rest = '"' :: first :: (text ++ '"' :: rest) := by
    simp
  have found : lookahead.quote (text ++ '"' :: rest) = some text.length :=
    Search.quote_append unquoted rest
  have split : (text ++ '"' :: rest).drop text.length = '"' :: rest := List.drop_left
  have opens : lookahead.char '"' = '"' := rfl
  have not_word : ¬lookahead.startsWord ('"' :: first :: (text ++ '"' :: rest)) :=
    show ¬Text.isWordChar '"' by decide
  rw [whole, readValue_colon, if_neg not_word, Lookahead.readQuoted, if_pos opens, found,
    Option.bind_some, split]
  simp only [List.take_left, spell_eq]

theorem WritesValue.readValue {written rest : List Char} {value : String}
    (writes : WritesValue written value) (ends : EndsPath rest) :
    lookahead.readValue (':' :: (written ++ rest)) = some (value, rest) := by
  cases writes with
  | bare isWord =>
      rw [readValue_colon, if_pos (isWord.startsWord rest), spell_eq, isWord.word_append ends,
        isWord.afterWord_append ends]
  | quoted unquoted => exact readValue_quoted _ unquoted rest

theorem Kind.ofSign?_eq (kind : Kind) :
    lookahead.char kind.sign ≠ '[' ∧ Kind.ofSign? (lookahead.char kind.sign) = some kind := by
  cases kind <;> exact ⟨by decide, rfl⟩

theorem WritesTest.readToken {text rest : List Char} {test : TagTest}
    (writes : WritesTest text test)
    (ends : EndsTest rest) :
    ∃ head tail, text = head :: tail ∧ ¬Text.isBlank head ∧
      lookahead.readToken head (tail ++ rest) = some (.test test, rest) := by
  cases writes with
  | @path kind text path writes =>
      refine ⟨kind.sign, text, rfl, by cases kind <;> decide, ?_⟩
      rw [Lookahead.readToken, if_neg (Kind.ofSign?_eq kind).1, (Kind.ofSign?_eq kind).2,
        Option.bind_some, Lookahead.readTest, if_pos (writes.startsWord rest),
        writes.afterPath ends.1, ends.readValue, writes.path_append ends.1]
      rfl
  | @value kind text written path value writes writesValue =>
      have ends_path : EndsPath (':' :: (written ++ rest)) := .cons (by decide) (by decide) _
      refine ⟨kind.sign, text ++ ':' :: written, rfl, by cases kind <;> decide, ?_⟩
      rw [List.append_assoc, List.cons_append, Lookahead.readToken,
        if_neg (Kind.ofSign?_eq kind).1, (Kind.ofSign?_eq kind).2, Option.bind_some,
        Lookahead.readTest, if_pos (writes.startsWord _), writes.afterPath ends_path,
        writesValue.readValue ends.1, writes.path_append ends_path]
      rfl

theorem EndsTest.cons {c : Char} (not_word : ¬Text.isWordChar c) (not_dot : c ≠ '.')
    (not_colon : c ≠ ':') (rest : List Char) : EndsTest (c :: rest) :=
  ⟨.cons not_word not_dot rest, fun isColon => not_colon (Option.some.inj isColon)⟩

theorem EndsTest.nil : EndsTest [] :=
  ⟨fun _ member => (Option.not_mem_none _ member).elim, Option.not_mem_none _⟩

theorem EndsTest.append {text : List Char} (ends : EndsTest text) (nonempty : text ≠ [])
    (rest : List Char) : EndsTest (text ++ rest) := by
  cases text with
  | nil => exact absurd rfl nonempty
  | cons => exact ends

theorem WritesTest.endsTest {text : List Char} {test : TagTest} (writes : WritesTest text test)
    (rest : List Char) : EndsTest (text ++ rest) := by
  cases writes with
  | @path kind => cases kind <;> exact .cons (by decide) (by decide) (by decide) _
  | @value kind => cases kind <;> exact .cons (by decide) (by decide) (by decide) _

theorem Writes.endsTest {text : List Char} {query : Query} (writes : Writes text query) :
    EndsTest text := by
  cases writes with
  | nil => exact .nil
  | @blank c rest _ blank =>
      exact .cons (Text.not_isWordChar_of_isBlank blank) (Text.ne_of_isBlank blank (by decide))
        (Text.ne_of_isBlank blank (by decide)) rest
  | test writes => exact writes.endsTest _
  | group => exact .cons (by decide) (by decide) (by decide) _

/-! Where brackets close in what the grammar derives. -/

theorem isPlain_of_isWordChar {c : Char} (word : Text.isWordChar c) : Search.IsPlain c :=
  ⟨Text.ne_of_isWordChar word (by decide), Text.ne_of_isWordChar word (by decide),
    Text.ne_of_isWordChar word (by decide), Text.ne_of_isWordChar word (by decide)⟩

theorem isPlain_of_isBlank {c : Char} (blank : Text.isBlank c) : Search.IsPlain c :=
  ⟨Text.ne_of_isBlank blank (by decide), Text.ne_of_isBlank blank (by decide),
    Text.ne_of_isBlank blank (by decide), Text.ne_of_isBlank blank (by decide)⟩

theorem WritesPath.isPlain {text : List Char} {path : List String} (writes : WritesPath text path) :
    ∀ c ∈ text, Search.IsPlain c := by
  induction writes with
  | word isWord => exact fun c member => isPlain_of_isWordChar (isWord.2 c member)
  | dot isWord _ induction =>
      refine List.forall_mem_append.mpr ⟨?_, List.forall_mem_cons.mpr ⟨?_, induction⟩⟩
      · exact fun c member => isPlain_of_isWordChar (isWord.2 c member)
      · simp [Search.IsPlain]

theorem WritesPath.passes {text : List Char} {path : List String} (writes : WritesPath text path)
    {afterColon : Bool} : Search.Passes afterColon text := by
  refine .of_plain ?_ writes.isPlain
  cases writes with
  | word isWord => exact isWord.1
  | dot => simp

theorem WritesValue.passes {written : List Char} {value : String}
    (writes : WritesValue written value) : Search.Passes true written := by
  cases writes with
  | bare isWord => exact (WritesPath.word isWord).passes
  | quoted unquoted => exact .quoted _ unquoted

theorem WritesTest.passes {text : List Char} {test : TagTest} (writes : WritesTest text test) :
    Search.Passes false text := by
  have sign (kind : Kind) : Search.IsPlain kind.sign := by
    cases kind <;> simp [Kind.sign, Search.IsPlain]
  cases writes with
  | path writes => exact .cons (sign _) writes.passes
  | value writes writesValue => exact .cons (sign _) (writes.passes.append writesValue.passes.colon)

/-- A search for a bracket passes over a query. -/
theorem Writes.passes {text : List Char} {query : Query} (writes : Writes text query) :
    Search.Passes false text := by
  induction writes with
  | nil => exact .nil
  | blank blank _ induction => exact .cons (isPlain_of_isBlank blank) induction
  | test writes _ induction => exact writes.passes.append induction
  | @group contents rest _ _ _ _ induction induction_later =>
      have whole : '[' :: (contents ++ ']' :: rest) = '[' :: (contents ++ [']']) ++ rest := by simp
      rw [whole]
      exact induction.group.append induction_later

/-- A query in brackets is a token, whatever follows. -/
theorem Writes.readToken_group {contents : List Char} {exprs : Query}
    (writes : Writes contents exprs) (rest : List Char) :
    lookahead.readToken '[' (contents ++ ']' :: rest) = some (.group contents, rest) := by
  have closes : lookahead.inside '[' (contents ++ ']' :: rest) = some contents.length := by
    change Search.inside 0 false _ = _
    rw [writes.passes, Search.inside_closing_zero]
    simp
  have split : (contents ++ ']' :: rest).drop contents.length = ']' :: rest := List.drop_left
  have opens : lookahead.char '[' = '[' := rfl
  rw [Lookahead.readToken, if_pos opens, closes, Option.bind_some, split]
  simp only [List.take_left]

/-- Behind the text of a query the reader goes on as if nothing stood before. -/
theorem Writes.readView_append {text rest : List Char} {query : Query} (writes : Writes text query)
    (ends : EndsTest rest) (size : Nat) :
    lookahead.readView size (text ++ rest) = (lookahead.readView size rest).map (query ++ ·) := by
  induction writes generalizing rest size with
  | nil => cases read : lookahead.readView size rest <;> simp [Except.map, read]
  | blank blank _ induction =>
      rw [List.cons_append, lookahead.readView_blank size _ blank]
      exact induction ends size
  | @test _ later _ _ writes further induction =>
      have endsLater : EndsTest (later ++ rest) := by
        by_cases last : later = []
        · rwa [last]
        · exact further.endsTest.append last rest
      obtain ⟨head, tail, rfl, not_blank, read⟩ := writes.readToken endsLater
      rw [List.append_assoc, List.cons_append, lookahead.readView_test size not_blank read,
        induction ends size]
      cases lookahead.readView size rest <;> rfl
  | @group contents later exprs query inner further induction induction_later =>
      have read : lookahead.readView contents.length contents = .ok exprs := by
        simpa [lookahead.readView_nil, Except.map] using induction EndsTest.nil contents.length
      have whole : '[' :: (contents ++ ']' :: later) ++ rest =
          '[' :: (contents ++ ']' :: (later ++ rest)) := by simp
      rw [whole, lookahead.readView_group size (by decide) (inner.readToken_group (later ++ rest))
        read, induction_later ends size]
      cases lookahead.readView size rest <;> rfl

/-- What the grammar derives is accepted by the reader. -/
theorem Writes.readView {text : List Char} {query : Query} (writes : Writes text query)
    (size : Nat) : lookahead.readView size text = .ok query := by
  simpa [lookahead.readView_nil, Except.map] using writes.readView_append EndsTest.nil size

/-- What goes on behind the text of a query is the text of a query as well. -/
theorem Writes.of_append {text rest : List Char} {query whole : Query} (first : Writes text query)
    (ends : EndsTest rest) (all : Writes (text ++ rest) whole) :
    ∃ later, whole = query ++ later ∧ Writes rest later := by
  have read := all.readView 0
  rw [first.readView_append ends, map_eq_ok_iff] at read
  obtain ⟨later, read, rfl⟩ := read
  exact ⟨later, rfl, writes_of_readView read⟩

theorem Writes.of_blank {c : Char} {rest : List Char} {query : Query} (blank : Text.isBlank c)
    (writes : Writes (c :: rest) query) : Writes rest query := by
  have read := writes.readView 0
  rw [lookahead.readView_blank 0 _ blank] at read
  exact writes_of_readView read

/-! ## The grammar decides -/

theorem parse_eq_ok_iff {text : String} {query : Query} :
    parse text = .ok query ↔ Writes text.toList query := by
  rw [parse_eq_read]
  exact ⟨writes_of_readView, fun writes => writes.readView _⟩

theorem Writes.append {text later : List Char} {query further : Query} (first : Writes text query)
    (second : Writes later further) : Writes (text ++ later) (query ++ further) := by
  induction first with
  | nil => exact second
  | blank blank _ induction => exact .blank blank induction
  | test writes _ induction =>
      rw [List.append_assoc]
      exact .test writes induction
  | group inner _ _ induction =>
      rw [List.cons_append, List.append_assoc]
      exact .group inner induction

/-- Texts of queries can be joined by spaces. -/
theorem writes_intercalate {texts : List String} {queries : List Query}
    (each : List.Forall₂ (fun text query => Writes text.toList query) texts queries) :
    Writes (" ".intercalate texts).toList queries.flatten := by
  induction each with
  | nil => exact .nil
  | @cons text query others rest writes later induction =>
      cases others with
      | nil =>
          cases later
          simpa using writes
      | cons next others =>
          have further := writes.append (.blank (c := ' ') (by decide) induction)
          simpa [String.intercalate_cons_cons] using further

/-- A text is read as a query exactly if the grammar derives it as this query.  The grammar gives a
text at most one query, and texts of queries can stand side by side without a blank. -/
theorem parse_accepts_grammar :
    (∀ (text : String) (query : Query), parse text = .ok query ↔ Writes text.toList query) ∧
      (∀ (text : List Char) (query other : Query), Writes text query → Writes text other →
        query = other) ∧
      ∀ (text later : List Char) (query further : Query), Writes text query →
        Writes later further → Writes (text ++ later) (query ++ further) := by
  refine ⟨fun _ _ => parse_eq_ok_iff, ?_, fun _ _ _ _ => Writes.append⟩
  intro text query other first second
  have same := (first.readView text.length).symm.trans (second.readView text.length)
  exact Except.ok.inj same

theorem writes_two_tests :
    parse "+cat" = .ok [.test ⟨.required, ["cat"], none⟩] ∧
      Writes ("+cat".toList ++ "+cat".toList)
        [.test ⟨.required, ["cat"], none⟩, .test ⟨.required, ["cat"], none⟩] := by
  have path : WritesPath "cat".toList ["cat"] :=
    .word ⟨by decide, List.all_eq_true.mp (by decide)⟩
  have letters : "+cat".toList = Kind.required.sign :: "cat".toList := by decide
  have writes : Writes "+cat".toList [.test ⟨.required, ["cat"], none⟩] := by
    rw [letters, ← List.append_nil (_ :: _)]
    exact .test (.path path) .nil
  exact ⟨(parse_accepts_grammar.1 _ _).mpr writes,
    parse_accepts_grammar.2.2 _ _ _ _ writes writes⟩

end Query
end TagStore
