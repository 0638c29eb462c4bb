import TagStore.Proofs.Query.Brackets
import TagStore.Proofs.Query.Reader
import TagStore.Proofs.Text.Chars
import TagStore.Query.Marks

/-!
# Marks and searching

The marks of a text are made with the whole text in sight, and the reader carries them into the
contents of groups.  They answer there exactly as a search in the contents alone, because the
reader never stops inside of what the marks take for a quoted value: every quote after a colon that
it has passed opens a value that is closed in the same view.
-/

namespace TagStore
namespace Query
namespace Mark

/-- The quotes of a view are marked where a search finds them, or beyond the end of the view. -/
def Sighted (view : List Mark) : Prop :=
  ∀ text, text <:+ view →
    Search.quote (text.map char) = (lookahead.quote text).filter (· < text.length)

/-- Every opening bracket that a search of the view comes to is marked with the bracket that a
search from there ends at. -/
inductive Paired : (afterColon : Bool) → List Mark → Prop
  /-- At the end of the view. -/
  | nil {afterColon : Bool} : Paired afterColon []
  /-- At an opening bracket. -/
  | opening {afterColon : Bool} {head : Mark} {rest : List Mark} : head.char = '[' →
      lookahead.inside head rest = Search.inside 0 false (rest.map char) → Paired false rest →
      Paired afterColon (head :: rest)
  /-- At a quoted value. -/
  | skip {afterColon : Bool} {head : Mark} {rest : List Mark} {size : Nat} :
      Search.skipped afterColon head.char (rest.map char) = some size →
      Paired false (rest.drop (size + 2)) → Paired afterColon (head :: rest)
  /-- At any other character. -/
  | step {afterColon : Bool} {head : Mark} {rest : List Mark} : head.char ≠ '[' →
      Search.skipped afterColon head.char (rest.map char) = none →
      Paired (head.char == ':') rest → Paired afterColon (head :: rest)

theorem Sighted.of_suffix {view text : List Mark} (sighted : Sighted view)
    (suffix : text <:+ view) :
    Sighted text :=
  fun later laterSuffix => sighted later (laterSuffix.trans suffix)

theorem Sighted.drop {view : List Mark} (sighted : Sighted view) (size : Nat) :
    Sighted (view.drop size) :=
  sighted.of_suffix (List.drop_suffix size view)

theorem Sighted.take {view : List Mark} (sighted : Sighted view) (size : Nat) :
    Sighted (view.take size) := by
  intro text suffix
  obtain ⟨start, split⟩ := suffix
  have inView : start ++ (text ++ view.drop size) = view := by
    rw [← List.append_assoc, split, List.take_append_drop]
  have whole := sighted (text ++ view.drop size) ⟨start, inView⟩
  cases text with
  | nil => rfl
  | cons head rest =>
      have cut : (head :: rest).map char =
          ((head :: rest ++ view.drop size).map char).take (head :: rest).length := by
        simp
      rw [cut, Search.quote_take, whole, Option.filter_filter]
      congr 1
      funext position
      simp
      omega

theorem Sighted.quote_of_lt {view : List Mark} (sighted : Sighted view) {size : Nat}
    (marked : lookahead.quote view = some size) (within : size < view.length) :
    Search.quote (view.map char) = some size := by
  rw [sighted view List.suffix_rfl, marked, Option.filter_some, if_pos (by simpa using within)]

theorem Sighted.quote_of_le {view : List Mark} (sighted : Sighted view) {size : Nat}
    (marked : lookahead.quote view = some size) (beyond : view.length ≤ size) :
    Search.quote (view.map char) = none := by
  rw [sighted view List.suffix_rfl, marked, Option.filter_some, if_neg (by simpa using beyond)]

theorem Sighted.quote_of_none {view : List Mark} (sighted : Sighted view)
    (unmarked : lookahead.quote view = none) : Search.quote (view.map char) = none := by
  rw [sighted view List.suffix_rfl, unmarked]
  rfl

theorem Paired.after_plain {afterColon : Bool} {head : Mark} {rest : List Mark}
    (paired : Paired afterColon (head :: rest)) (not_opening : head.char ≠ '[')
    (not_quote : head.char ≠ '"') : Paired (head.char == ':') rest := by
  cases paired with
  | opening opens => exact absurd opens not_opening
  | skip skip => exact absurd (Search.skipped_eq_some_iff.mp skip).1 not_quote
  | step _ _ paired => exact paired

/-- What a search from inside of a group comes to is paired in the contents of the group and after
the group. -/
theorem Paired.split {afterColon : Bool} {view : List Mark} (paired : Paired afterColon view)
    {depth size : Nat} (found : Search.inside depth afterColon (view.map char) = some size) :
    Paired afterColon (view.take size) ∧ Paired false (view.drop (size + 1)) := by
  induction paired generalizing depth size with
  | nil => simp [Search.inside] at found
  | @opening afterColon head rest opens agrees _ induction =>
      rw [List.map_cons, opens, Search.inside_opening] at found
      obtain ⟨later, inner, rfl⟩ := Option.map_eq_some_iff.mp found
      obtain ⟨contents, after⟩ := induction inner
      refine ⟨?_, after⟩
      rw [List.take_succ_cons]
      refine .opening opens ?_ contents
      rw [← Nat.zero_add depth] at inner
      rw [List.map_take, Search.inside_take inner]
      exact agrees
  | @skip afterColon head rest width skip _ induction =>
      rw [List.map_cons, Search.inside_skip depth skip] at found
      obtain ⟨later, inner, rfl⟩ := Option.map_eq_some_iff.mp found
      rw [← List.map_drop] at inner
      obtain ⟨contents, after⟩ := induction inner
      rw [show later + (width + 3) = (later + (width + 2)) + 1 by omega]
      constructor
      · rw [List.take_succ_cons]
        have skipped := Search.skipped_take skip (show width + 1 < later + (width + 2) by omega)
        rw [← List.map_take] at skipped
        apply Paired.skip skipped
        · rw [List.drop_take, show later + (width + 2) - (width + 2) = later by omega]
          exact contents
      · rw [List.drop_drop] at after
        rw [List.drop_succ_cons, show later + (width + 2) + 1 = width + 2 + (later + 1) by omega]
        exact after
  | @step afterColon head rest not_opening step paired induction =>
      by_cases closes : head.char = ']'
      · rw [closes] at paired
        rw [List.map_cons, closes] at found
        cases depth with
        | zero =>
            rw [Search.inside_closing_zero] at found
            cases found
            exact ⟨.nil, paired⟩
        | succ depth =>
            rw [Search.inside_closing_succ] at found
            obtain ⟨later, inner, rfl⟩ := Option.map_eq_some_iff.mp found
            rw [closes] at induction
            obtain ⟨contents, after⟩ := induction inner
            refine ⟨?_, after⟩
            rw [List.take_succ_cons]
            refine .step not_opening ?_ (closes ▸ contents)
            rw [List.map_take]
            exact Search.skipped_take_of_none _ step
      · rw [List.map_cons, Search.inside_step depth closes not_opening step] at found
        obtain ⟨later, inner, rfl⟩ := Option.map_eq_some_iff.mp found
        obtain ⟨contents, after⟩ := induction inner
        refine ⟨?_, after⟩
        rw [List.take_succ_cons]
        refine .step not_opening ?_ contents
        rw [List.map_take]
        exact Search.skipped_take_of_none _ step

/-! ## Tests -/

theorem char_eq (mark : Mark) : Search.lookahead.char mark.char = lookahead.char mark := rfl

theorem readQuoted_map {view : List Mark} (sighted : Sighted view) :
    Search.lookahead.readQuoted (view.map char) =
      (lookahead.readQuoted view).map fun (value, after) => (value, after.map char) := by
  match view with
  | [] => rfl
  | [_] => rfl
  | front :: first :: rest =>
      have later : Sighted rest := sighted.of_suffix ⟨[front, first], rfl⟩
      simp only [List.map_cons, Lookahead.readQuoted]
      change (if front.char = '"' then (Search.quote (rest.map char)).bind _ else _) =
        Option.map _ (if front.char = '"' then _ else _)
      split
      · cases marked : lookahead.quote rest with
        | none =>
            rw [later.quote_of_none marked]
            rfl
        | some size =>
            by_cases within : size < rest.length
            · obtain ⟨closing, after, split⟩ := List.exists_cons_of_length_pos
                (l := rest.drop size) (by rw [List.length_drop]; omega)
              rw [later.quote_of_lt marked within]
              simp only [Option.bind_some, ← List.map_drop, split, List.map_cons, Option.map_some]
              rw [← List.map_take, ← List.map_cons, ← Lookahead.spell_map char_eq]
            · have beyond : rest.drop size = [] := List.drop_eq_nil_of_le (by omega)
              rw [later.quote_of_le marked (by omega)]
              simp only [Option.bind_none, Option.bind_some, beyond, Option.map_none]
      · rfl

theorem readValue_map {view : List Mark} (sighted : Sighted view) :
    Search.lookahead.readValue (view.map char) =
      (lookahead.readValue view).map fun (value, after) => (value, after.map char) := by
  cases view with
  | nil => rfl
  | cons colon rest =>
      have later : Sighted rest := sighted.drop 1
      simp only [List.map_cons, Lookahead.readValue]
      rw [Lookahead.startsWord_map char_eq, Lookahead.word_map char_eq,
        Lookahead.afterWord_map char_eq, Lookahead.spell_map char_eq, readQuoted_map later]
      change (if colon.char = ':' then _ else _) = Option.map _ (if colon.char = ':' then _ else _)
      split
      · split <;> rfl
      · rfl

theorem readTest_map {view : List Mark} (sighted : Sighted view) (kind : Kind) :
    Search.lookahead.readTest kind (view.map char) =
      (lookahead.readTest kind view).map fun (test, after) => (test, after.map char) := by
  have later : Sighted (lookahead.afterPath view) := sighted.drop _
  simp only [Lookahead.readTest]
  rw [Lookahead.startsWord_map char_eq, Lookahead.afterPath_map char_eq,
    Lookahead.path_map char_eq, readValue_map later]
  split
  · cases lookahead.readValue (lookahead.afterPath view) <;> rfl
  · rfl

theorem Paired.after_word_char {afterColon : Bool} {head : Mark} {rest : List Mark}
    (paired : Paired afterColon (head :: rest)) (word : Text.isWordChar head.char) :
    Paired false rest := by
  have later := paired.after_plain (Text.ne_of_isWordChar word (by decide))
    (Text.ne_of_isWordChar word (by decide))
  rwa [beq_false_of_ne (Text.ne_of_isWordChar word (by decide))] at later

theorem Paired.afterPath {view : List Mark} (paired : Paired false view) :
    Paired false (lookahead.afterPath view) := by
  induction view with
  | nil => exact paired
  | cons head rest induction =>
      rw [Lookahead.afterPath, Lookahead.pathLength]
      split
      · rename_i inPath
        refine induction ?_
        rcases Bool.or_eq_true_iff.mp inPath with word | dot
        · exact paired.after_word_char word
        · have isDot : head.char = '.' := eq_of_beq (Bool.and_eq_true_iff.mp dot).1
          have later := paired.after_plain (by simp [isDot]) (by simp [isDot])
          rwa [isDot] at later
      · exact paired

theorem Paired.afterWord {afterColon : Bool} {view : List Mark} (paired : Paired afterColon view)
    (starts : lookahead.startsWord view) : Paired false (lookahead.afterWord view) := by
  induction view generalizing afterColon with
  | nil => simp [Lookahead.startsWord] at starts
  | cons head rest induction =>
      have later := paired.after_word_char starts
      have isWord : Text.isWordChar (lookahead.char head) = true := starts
      rw [Lookahead.afterWord, List.dropWhile_cons, if_pos isWord]
      by_cases further : lookahead.startsWord rest
      · exact induction later further
      · have stops : rest.dropWhile (fun mark => Text.isWordChar (lookahead.char mark)) = rest := by
          cases rest with
          | nil => rfl
          | cons next rest =>
              have other : ¬Text.isWordChar (lookahead.char next) = true := further
              rw [List.dropWhile_cons, if_neg other]
        rwa [stops]

theorem Paired.afterQuoted {view after : List Mark} {value : String} (paired : Paired true view)
    (sighted : Sighted view) (read : lookahead.readQuoted view = some (value, after)) :
    Paired false after := by
  match view with
  | [] => cases read
  | [_] => cases read
  | front :: first :: rest =>
      have later : Sighted rest := sighted.of_suffix ⟨[front, first], rfl⟩
      rw [Lookahead.readQuoted] at read
      split at read
      · rename_i isQuote
        obtain ⟨size, found, ends⟩ := Option.bind_eq_some_iff.mp read
        split at ends
        · cases ends
        · rename_i closing tail split
          cases ends
          have within : size < rest.length := by
            have := congrArg List.length split
            simp only [List.length_drop, List.length_cons] at this
            omega
          have skip : Search.skipped true front.char ((first :: rest).map char) = some size :=
            Search.skipped_eq_some_iff.mpr ⟨isQuote, rfl, later.quote_of_lt found within⟩
          cases paired with
          | opening opens => exact absurd (opens.symm.trans isQuote) (by decide)
          | skip other rest_paired =>
              rw [skip] at other
              cases other
              have tail_eq : (first :: rest).drop (size + 2) = after := by
                rw [show size + 2 = size + 1 + 1 from rfl, List.drop_succ_cons, ← List.drop_drop,
                  split]
                rfl
              rwa [tail_eq] at rest_paired
          | step _ other => rw [skip] at other; cases other
      · cases read

theorem Paired.afterValue {view after : List Mark} {value : String} (paired : Paired false view)
    (sighted : Sighted view) (read : lookahead.readValue view = some (value, after)) :
    Paired false after := by
  cases view with
  | nil => cases read
  | cons colon rest =>
      rw [Lookahead.readValue] at read
      split at read
      · rename_i isColon
        have isColon : colon.char = ':' := isColon
        have later := paired.after_plain (by simp [isColon]) (by simp [isColon])
        rw [isColon] at later
        split at read
        · rename_i starts
          cases read
          exact later.afterWord starts
        · exact later.afterQuoted (sighted.drop 1) read
      · cases read

theorem Paired.afterTest {view after : List Mark} {kind : Kind} {test : TagTest}
    (paired : Paired false view) (sighted : Sighted view)
    (read : lookahead.readTest kind view = some (test, after)) : Paired false after := by
  have later : Sighted (lookahead.afterPath view) := sighted.drop _
  rw [Lookahead.readTest] at read
  split at read
  · split at read
    · rename_i found
      cases read
      exact paired.afterPath.afterValue later found
    · cases read
      exact paired.afterPath
  · cases read

/-! ## Tokens and queries -/

/-- The characters of a token. -/
def tokenChars : Token Mark → Token Char
  | .test test => .test test
  | .group contents => .group (contents.map char)

theorem readToken_map {head : Mark} {rest : List Mark} (sighted : Sighted rest)
    (paired : Paired false (head :: rest)) :
    Search.lookahead.readToken head.char (rest.map char) =
      (lookahead.readToken head rest).map fun (token, after) =>
        (tokenChars token, after.map char) := by
  simp only [Lookahead.readToken]
  change (if head.char = '[' then _ else _) = Option.map _ (if head.char = '[' then _ else _)
  split
  · rename_i opens
    have agrees : lookahead.inside head rest = Search.inside 0 false (rest.map char) := by
      cases paired with
      | opening _ agrees => exact agrees
      | skip skip => exact absurd ((Search.skipped_eq_some_iff.mp skip).1 ▸ opens) (by decide)
      | step not_opening => exact absurd opens not_opening
    change (Search.inside 0 false (rest.map char)).bind _ = _
    rw [← agrees]
    cases lookahead.inside head rest with
    | none => rfl
    | some size =>
        simp only [Option.bind_some, ← List.map_drop]
        cases rest.drop size with
        | nil => rfl
        | cons closing after => simp [tokenChars, List.map_take]
  · change (Kind.ofSign? head.char).bind _ = Option.map _ ((Kind.ofSign? head.char).bind _)
    cases Kind.ofSign? head.char with
    | none => rfl
    | some kind =>
        simp only [Option.bind_some, readTest_map sighted]
        cases lookahead.readTest kind rest <;> rfl

theorem Paired.afterGroup {head : Mark} {rest : List Mark} {size : Nat}
    (paired : Paired false (head :: rest)) (opens : head.char = '[')
    (marked : lookahead.inside head rest = some size) :
    Paired false (rest.take size) ∧ Paired false (rest.drop (size + 1)) := by
  cases paired with
  | opening _ agrees later => exact later.split (agrees ▸ marked)
  | skip skip => exact absurd ((Search.skipped_eq_some_iff.mp skip).1 ▸ opens) (by decide)
  | step not_opening => exact absurd opens not_opening

theorem Paired.afterBlank {head : Mark} {rest : List Mark} (paired : Paired false (head :: rest))
    (blank : Text.isBlank head.char) : Paired false rest := by
  have later := paired.after_plain (Text.ne_of_isBlank blank (by decide))
    (Text.ne_of_isBlank blank (by decide))
  rwa [beq_false_of_ne (Text.ne_of_isBlank blank (by decide))] at later

/-- After a token, and within it if it is a group, a search is in step with the reader again. -/
theorem Paired.afterToken {head : Mark} {rest after : List Mark} {token : Token Mark}
    (paired : Paired false (head :: rest)) (sighted : Sighted rest)
    (read : lookahead.readToken head rest = some (token, after)) :
    (Paired false after ∧ Sighted after) ∧
      ∀ contents, token = .group contents → Paired false contents ∧ Sighted contents := by
  rw [Lookahead.readToken] at read
  split at read
  · rename_i opens
    obtain ⟨size, marked, found⟩ := Option.bind_eq_some_iff.mp read
    obtain ⟨contents_paired, after_paired⟩ := paired.afterGroup opens marked
    split at found
    · cases found
    · rename_i closing tail split
      cases found
      rw [← List.drop_drop, split] at after_paired
      have after_sighted := sighted.drop (size + 1)
      rw [← List.drop_drop, split] at after_sighted
      refine ⟨⟨after_paired, after_sighted⟩, ?_⟩
      rintro _ ⟨⟩
      exact ⟨contents_paired, sighted.take size⟩
  · rename_i not_opening
    obtain ⟨kind, sign, found⟩ := Option.bind_eq_some_iff.mp read
    obtain ⟨⟨test, tail⟩, whole, same⟩ := Option.map_eq_some_iff.mp found
    cases same
    have signed : head.char = kind.sign := Kind.eq_sign_of_ofSign? sign
    have later := paired.after_plain (by cases kind <;> simp [signed, Kind.sign])
      (by cases kind <;> simp [signed, Kind.sign])
    rw [show (head.char == ':') = false by cases kind <;> simp [signed, Kind.sign]] at later
    refine ⟨⟨later.afterTest sighted whole,
      sighted.of_suffix (lookahead.suffix_of_readTest whole)⟩, ?_⟩
    rintro _ ⟨⟩

/-- In a view with right marks the reader sees what it would find by searching. -/
theorem readView_map (size : Nat) {view : List Mark} (sighted : Sighted view)
    (paired : Paired false view) :
    Search.lookahead.readView size (view.map char) = lookahead.readView size view := by
  fun_induction lookahead.readView size view with
  | case1 => exact Lookahead.readView_nil _ _
  | case2 size head rest blank induction =>
      rw [List.map_cons, Lookahead.readView_blank Search.lookahead size (rest.map char) blank]
      exact induction (sighted.drop 1) (paired.afterBlank blank)
  | case3 size head rest not_blank found =>
      have later : Sighted rest := sighted.drop 1
      have same := readToken_map later paired
      rw [found] at same
      rw [List.map_cons, Lookahead.readView_unexpected Search.lookahead size not_blank same,
        List.length_map]
  | case4 size head rest not_blank test after found induction =>
      have later : Sighted rest := sighted.drop 1
      have same := readToken_map later paired
      rw [found] at same
      obtain ⟨⟨after_paired, after_sighted⟩, _⟩ := paired.afterToken later found
      rw [List.map_cons, Lookahead.readView_test Search.lookahead size not_blank same,
        induction after_sighted after_paired]
  | case5 size head rest not_blank contents after found cause inner induction =>
      have later : Sighted rest := sighted.drop 1
      have same := readToken_map later paired
      rw [found] at same
      obtain ⟨_, within⟩ := paired.afterToken later found
      obtain ⟨contents_paired, contents_sighted⟩ := within contents rfl
      have inner_same := induction contents_sighted contents_paired
      rw [inner, ← List.length_map (f := char)] at inner_same
      rw [List.map_cons, Lookahead.readView_inGroup Search.lookahead size not_blank same inner_same,
        List.length_map]
  | case6 size head rest not_blank contents after found exprs inner induction induction_after =>
      have later : Sighted rest := sighted.drop 1
      have same := readToken_map later paired
      rw [found] at same
      obtain ⟨⟨after_paired, after_sighted⟩, within⟩ := paired.afterToken later found
      obtain ⟨contents_paired, contents_sighted⟩ := within contents rfl
      have inner_same := induction contents_sighted contents_paired
      rw [inner, ← List.length_map (f := char)] at inner_same
      rw [List.map_cons, Lookahead.readView_group Search.lookahead size not_blank same inner_same,
        induction_after after_sighted after_paired]

end Mark
end Query
end TagStore
