import TagStore.Proofs.Query.Nesting
import TagStore.Proofs.Query.Pairing

/-!
# Reading by positions

In a sound view every step of the reader that goes by positions can be taken, and it leads to where
the reader of marks comes to.  A place is given here by the marks in front of it.
-/

namespace TagStore
namespace Query

open Mark (lookahead IsSound)

namespace View

variable {view : View} {front text part after rest : List Mark} {head : Mark}

theorem lookahead_char (mark : Mark) : lookahead.char mark = mark.char := rfl

theorem ok_bind {ε α β : Type} (value : α) (next : α → Except ε β) :
    (Except.ok value >>= next) = next value := rfl

theorem lift_bind {α β : Type} (value : α) (next : α → Reading β) :
    (liftM (Except.ok value : Except Fault α) >>= next) = next value := rfl

theorem run_bind_ok {α β : Type} {step : Reading α} {value : α} (next : α → Reading β)
    (done : step.run = .ok (.ok value)) : (step >>= next).run = (next value).run := by
  have done : step = (.ok (.ok value) : Except Fault _) := done
  rw [done]
  rfl

theorem run_bind_error {α β : Type} {step : Reading α} {error : ParseError} (next : α → Reading β)
    (failed : step.run = .ok (.error error)) : (step >>= next).run = .ok (.error error) := by
  have failed : step = (.ok (.error error) : Except Fault _) := failed
  rw [failed]
  rfl

theorem run_bind_pure {α β : Type} {step : Reading α} {result : Except ParseError α}
    (change : α → β) (done : step.run = .ok result) :
    (step >>= fun value => pure (change value)).run = .ok (result.map change) := by
  have done : step = (.ok result : Except Fault _) := done
  rw [done]
  cases result <;> rfl

theorem run_adapt {α : Type} {step : Reading α} {result : Except ParseError α}
    (change : ParseError → ParseError) (done : step.run = .ok result) :
    (ExceptT.adapt change step).run = .ok (result.mapError change) := by
  have done : step = (.ok result : Except Fault _) := done
  rw [done]
  rfl

/-! ## Ranges -/

theorem slice_take (split : view.marks = front ++ text) {last : Nat} (start : front.length ≤ last)
    (inside : last ≤ view.marks.length) :
    view.slice front.length last = .ok (text.take (last - front.length)) := by
  rw [slice, if_pos ⟨start, inside⟩, split, List.take_append, List.take_of_length_le start,
    List.drop_left]

theorem slice_eq (split : view.marks = front ++ (part ++ after)) :
    view.slice front.length (front ++ part).length = .ok part := by
  have inside : front.length ≤ (front ++ part).length ∧
      (front ++ part).length ≤ view.marks.length := by
    rw [split]
    simp only [List.length_append]
    omega
  rw [slice, if_pos inside, split, ← List.append_assoc, List.take_left, List.drop_left]

theorem spell_eq (split : view.marks = front ++ (part ++ after)) :
    view.spell front.length (front ++ part).length = .ok (lookahead.spell part) := by
  rw [spell, slice_eq split]
  rfl

theorem split_afterWord (split : view.marks = front ++ text) :
    view.marks = (front ++ lookahead.word text) ++ lookahead.afterWord text := by
  rw [List.append_assoc, lookahead.word_append_afterWord, split]

theorem spell_word (split : view.marks = front ++ text) :
    view.spell front.length (front ++ lookahead.word text).length =
      .ok (lookahead.spell (lookahead.word text)) := by
  have split_word := split_afterWord split
  rw [List.append_assoc] at split_word
  exact spell_eq split_word

theorem split_cons (split : view.marks = front ++ head :: text) :
    view.marks = (front ++ [head]) ++ text := by
  rw [split, List.append_assoc, List.singleton_append]

theorem length_eq (split : view.marks = front ++ head :: rest) :
    view.marks.length = front.length + (rest.length + 1) := by
  rw [split, List.length_append, List.length_cons]

theorem length_concat (front : List Mark) (head : Mark) :
    (front ++ [head]).length = front.length + 1 := List.length_append

theorem getElem?_eq (split : view.marks = front ++ text) :
    view.marks[front.length]? = text.head? := by
  rw [split, List.getElem?_append_right (Nat.le_refl _), Nat.sub_self, List.head?_eq_getElem?]

theorem char?_eq (split : view.marks = front ++ text) :
    view.char? front.length = text.head?.map Mark.char :=
  congrArg (Option.map Mark.char) (getElem?_eq split)

theorem wordEnd?_eq (split : view.marks = front ++ text) :
    view.wordEnd? front.length =
      if lookahead.startsWord text then some (front ++ lookahead.word text).length else none := by
  rw [wordEnd?, split, List.drop_left]
  cases word : lookahead.word text with
  | nil =>
      rw [lookahead.word_eq_nil_iff] at word
      simp [word]
  | cons first others =>
      have starts : lookahead.startsWord text = true := by
        rw [← Bool.not_eq_false, ← lookahead.word_eq_nil_iff, word]
        exact List.cons_ne_nil _ _
      simp [starts]

/-! ## Words and paths -/

theorem segmentsFrom_dot {last next : Nat} {segment : String} {segments : List String} {ends : Nat}
    (dot : view.char? last = some '.') (word : view.wordEnd? (last + 1) = some next)
    (spelled : view.spell (last + 1) next = .ok segment)
    (later : view.segmentsFrom next = .ok (segments, ends)) :
    view.segmentsFrom last = .ok (segment :: segments, ends) := by
  rw [segmentsFrom, dif_pos dot]
  split
  · rename_i none
    rw [none] at word
    cases word
  · rename_i found
    cases found.symm.trans word
    rw [spelled]
    change (view.segmentsFrom next >>= _) = _
    rw [later]
    rfl

theorem segmentsFrom_end {last : Nat}
    (ends : view.char? last = some '.' → view.wordEnd? (last + 1) = none) :
    view.segmentsFrom last = .ok ([], last) := by
  rw [segmentsFrom]
  split
  · rename_i dot
    split
    · rfl
    · rename_i found
      cases found.symm.trans (ends dot)
  · rfl

/-- The place that is reached when an end of the view is left. -/
def placeBefore (view : View) (after : List Mark) : Nat := view.marks.length - after.length

theorem placeBefore_eq (split : view.marks = front ++ after) :
    view.placeBefore after = front.length := by
  rw [placeBefore, split, List.length_append, Nat.add_sub_cancel]

theorem segmentsFrom_eq {front text : List Mark} (split : view.marks = front ++ text) :
    view.segmentsFrom (front ++ lookahead.word text).length =
      .ok ((lookahead.path text).tail, view.placeBefore (lookahead.afterPath text)) := by
  have split_word := split_afterWord split
  rcases lookahead.path_cases text with
    ⟨dot, rest, after, isDot, starts, path, afterPath⟩ | ⟨ends, path, afterPath⟩
  · have shorter : rest.length < text.length := by
      have lengths := congrArg List.length (lookahead.word_append_afterWord text)
      rw [List.length_append, after, List.length_cons] at lengths
      omega
    rw [after] at split_word
    have split_dot := split_cons split_word
    have here : view.char? (front ++ lookahead.word text).length = some '.' :=
      (char?_eq split_word).trans (congrArg some isDot)
    have word := (wordEnd?_eq split_dot).trans (if_pos starts)
    have spelled := spell_word split_dot
    rw [length_concat] at word spelled
    rw [segmentsFrom_dot here word spelled (segmentsFrom_eq split_dot), path, afterPath,
      List.tail_cons, ← lookahead.path_eq_cons]
  · rw [path, afterPath, placeBefore_eq split_word]
    refine segmentsFrom_end fun here => ?_
    rw [char?_eq split_word] at here
    obtain ⟨dot, first, isDot⟩ := Option.map_eq_some_iff.mp here
    obtain ⟨rest, after⟩ := List.head?_eq_some_iff.mp first
    rw [after] at split_word
    rw [← length_concat _ dot, wordEnd?_eq (split_cons split_word), ends dot rest after isDot]
    rfl
  termination_by text.length

theorem path?_eq (split : view.marks = front ++ text) :
    view.path? front.length = .ok (if lookahead.startsWord text then
      some (lookahead.path text, view.placeBefore (lookahead.afterPath text)) else none) := by
  rw [path?, wordEnd?_eq split]
  by_cases starts : lookahead.startsWord text = true
  · rw [if_pos starts, if_pos starts]
    simp only [spell_word split]
    change (view.segmentsFrom _ >>= _) = _
    rw [segmentsFrom_eq split]
    exact congrArg (fun path => Except.ok (some (path, _))) (lookahead.path_eq_cons text).symm
  · rw [if_neg starts, if_neg starts]

/-! ## Values -/

theorem placeOf_eq {position : Nat} (behind : view.offset ≤ position) :
    view.placeOf position = .ok (position - view.offset) :=
  if_pos behind

/-- The quote that closes a value is the first one from where it may be, unless that is not in the
view. -/
theorem closingQuote?_eq {opening first : Mark} (sound : IsSound view.offset view.marks)
    (split : view.marks = front ++ opening :: first :: text) :
    view.closingQuote? front.length =
      .ok (((lookahead.quote text).filter (· < text.length)).map (front.length + 2 + ·)) := by
  have here := getElem?_eq (split_cons (split_cons split))
  rw [length_concat, length_concat] at here
  cases text with
  | nil =>
      rw [closingQuote?, here]
      rfl
  | cons mark rest =>
      have position := sound.position _ mark here
      rw [closingQuote?, here]
      cases marked : mark.quote with
      | none => simp [marked, Mark.lookahead]
      | some quote =>
          have member : mark ∈ view.marks := List.mem_of_getElem? here
          have behind := sound.quote mark member quote marked
          have length : view.marks.length = front.length + 2 + (mark :: rest).length := by
            rw [split]
            simp only [List.length_append, List.length_cons]
            omega
          have quote_eq : lookahead.quote (mark :: rest) = some (quote - mark.position) :=
            congrArg (Option.map _) marked
          simp only [List.head?_cons, Option.bind_some, marked, quote_eq]
          have place : quote - view.offset = front.length + 2 + (quote - mark.position) := by omega
          rw [placeOf_eq (by omega), place, Option.filter_some]
          change Except.ok (if _ < view.marks.length then some _ else none) = _
          by_cases within : quote - mark.position < (mark :: rest).length
          · rw [if_pos (by omega), if_pos (decide_eq_true within)]
            rfl
          · rw [if_neg (by omega), if_neg (by simpa using within)]
            rfl

/-- What is read behind a place, with the end that it leaves given as a place. -/
def placed {α : Type} (view : View) (read : Option (α × List Mark)) : Option (α × Nat) :=
  read.map fun (value, after) => (value, view.placeBefore after)

theorem placed_some {α : Type} (value : α) (split : view.marks = front ++ after) :
    view.placed (some (value, after)) = some (value, front.length) := by
  rw [placed, Option.map_some, ← placeBefore_eq split]

/-- A value that is closed in the view is a range of it, and what follows its closing quote begins
one place further. -/
theorem exists_of_closed {opening first : Mark}
    (split : view.marks = front ++ opening :: first :: text) {size : Nat}
    (within : size < text.length) : ∃ closing after,
      text.drop size = closing :: after ∧
        view.spell (front.length + 1) (front.length + 2 + size) =
          .ok (lookahead.spell (first :: text.take size)) ∧
        view.placeBefore after = front.length + 2 + size + 1 := by
  obtain ⟨closing, after, drop⟩ := List.exists_cons_of_length_pos (l := text.drop size)
    (by rw [List.length_drop]; omega)
  have whole : view.marks =
      (front ++ [opening]) ++ ((first :: text.take size) ++ (closing :: after)) := by
    rw [← drop, List.cons_append, List.take_append_drop]
    exact split_cons split
  have ends : (front ++ [opening] ++ (first :: text.take size)).length =
      front.length + 2 + size := by
    simp only [List.length_append, List.length_cons, List.length_nil, List.length_take]
    omega
  refine ⟨closing, after, drop, ?_, ?_⟩
  · have spelled := spell_eq whole
    rwa [length_concat, ends] at spelled
  · rw [← List.append_assoc] at whole
    rw [placeBefore_eq (split_cons whole), length_concat, ends]

theorem quoted?_eq (sound : IsSound view.offset view.marks) (split : view.marks = front ++ text) :
    view.quoted? front.length = .ok (view.placed (lookahead.readQuoted text)) := by
  rw [quoted?, char?_eq split]
  match text with
  | [] => rfl
  | [opening] =>
      have none : view.marks[front.length + 2]? = none := by simp [split]
      rw [closingQuote?, none]
      exact ite_self _
  | opening :: first :: rest =>
      simp only [List.head?_cons, Option.map_some, Option.some.injEq, Lookahead.readQuoted]
      rw [closingQuote?_eq sound split, lookahead_char]
      by_cases isQuote : opening.char = '"'
      · rw [if_pos isQuote, if_pos isQuote]
        cases lookahead.quote rest with
        | none => rfl
        | some size =>
            rw [Option.bind_some, Option.filter_some]
            by_cases within : size < rest.length
            · obtain ⟨closing, after, drop, spelled, place⟩ := exists_of_closed split within
              rw [if_pos (decide_eq_true within), drop]
              change (do let value ← view.spell _ _; pure _) = Except.ok (view.placed (some _))
              rw [spelled]
              exact congrArg (fun last => Except.ok (some (_, last))) place.symm
            · have beyond : rest.drop size = [] := List.drop_eq_nil_of_le (by omega)
              rw [if_neg (by simpa using within), beyond]
              rfl
      · rw [if_neg isQuote, if_neg isQuote]
        rfl

theorem value?_eq (sound : IsSound view.offset view.marks) (split : view.marks = front ++ text) :
    view.value? front.length = .ok (view.placed (lookahead.readValue text)) := by
  rw [value?, char?_eq split]
  cases text with
  | nil => rfl
  | cons colon text =>
      have split_colon := split_cons split
      simp only [List.head?_cons, Option.map_some, Option.some.injEq, Lookahead.readValue]
      rw [lookahead_char]
      by_cases isColon : colon.char = ':'
      · rw [if_pos isColon, if_pos isColon, ← length_concat front colon, wordEnd?_eq split_colon]
        by_cases starts : lookahead.startsWord text = true
        · rw [if_pos starts, if_pos starts, placed_some _ (split_afterWord split_colon)]
          simp only [spell_word split_colon]
          rfl
        · rw [if_neg starts, if_neg starts]
          exact quoted?_eq sound split_colon
      · rw [if_neg isColon, if_neg isColon]
        rfl

/-! ## Tokens -/

theorem test?_eq (sound : IsSound view.offset view.marks) (split : view.marks = front ++ text)
    (kind : Kind) :
    view.test? kind front.length = .ok (view.placed (lookahead.readTest kind text)) := by
  rw [test?, path?_eq split, Lookahead.readTest]
  by_cases starts : lookahead.startsWord text = true
  · have split_path : view.marks =
        (front ++ text.take (lookahead.pathLength text)) ++ lookahead.afterPath text := by
      rw [List.append_assoc, Lookahead.afterPath, List.take_append_drop, split]
    rw [if_pos starts, if_pos starts, placeBefore_eq split_path]
    simp only [ok_bind, value?_eq sound split_path]
    cases lookahead.readValue (lookahead.afterPath text) with
    | none => exact congrArg Except.ok (placed_some _ split_path).symm
    | some found => rfl
  · rw [if_neg starts, if_neg starts]
    rfl

/-- A token of marks as one of places, where it starts with its contents at a place. -/
def Token.at (first : Nat) : Query.Token Mark → Token
  | .test single => .test single
  | .group contents => .group first (first + contents.length)

/-- A token that is read behind a place. -/
def placedToken (view : View) (first : Nat) (read : Option (Query.Token Mark × List Mark)) :
    Option (Token × Nat) :=
  (view.placed read).map fun (token, last) => (Token.at first token, last)

/-- The bracket that closes a group is in the view, so it is not missed that this is not checked. -/
theorem group?_eq (sound : IsSound view.offset view.marks)
    (split : view.marks = front ++ head :: rest) (opens : head.char = '[') :
    view.group? front.length =
      .ok (view.placedToken (front.length + 1) (lookahead.readToken head rest)) := by
  have here : view.marks[front.length]? = some head := getElem?_eq split
  have behind := sound.of_split split
  rw [group?, closingBracket?, here, Option.bind_some, Lookahead.readToken, lookahead_char,
    if_pos opens]
  cases marked : head.closing with
  | none =>
      have inside : lookahead.inside head rest = none := congrArg (Option.map _) marked
      rw [inside]
      rfl
  | some close =>
      obtain ⟨contents, partner, after, rfl, rfl, -⟩ := behind.exists_split marked
      have inside :
          lookahead.inside head (contents ++ partner :: after) = some contents.length := by
        change head.closing.map _ = _
        rw [marked, Option.map_some, behind.head_position, Nat.add_sub_cancel_left]
      have split_after : view.marks = (front ++ head :: contents ++ [partner]) ++ after := by
        rw [split]
        simp
      have closes : view.placeOf (view.offset + front.length + 1 + contents.length) =
          .ok (front.length + 1 + contents.length) := by
        rw [placeOf_eq (by omega)]
        congr 1
        omega
      have last : (front ++ head :: contents ++ [partner]).length =
          front.length + 1 + contents.length + 1 := by
        simp only [List.length_append, List.length_cons, List.length_nil]
        omega
      simp only [closes, inside, Option.bind_some, List.drop_left, List.take_left]
      rw [placedToken, placed_some _ split_after, last]
      rfl

theorem token?_eq (sound : IsSound view.offset view.marks)
    (split : view.marks = front ++ head :: rest) :
    view.token? front.length =
      .ok (view.placedToken (front.length + 1) (lookahead.readToken head rest)) := by
  have here : view.char? front.length = some head.char := char?_eq split
  simp only [token?, here]
  by_cases opens : head.char = '['
  · rw [if_pos opens]
    exact group?_eq sound split opens
  · rw [if_neg opens, Lookahead.readToken, lookahead_char, if_neg opens]
    cases Kind.ofSign? head.char with
    | none => rfl
    | some kind =>
        simp only [← length_concat front head, test?_eq sound (split_cons split)]
        rw [Option.bind_some]
        cases lookahead.readTest kind rest <;> rfl

/-! ## Going on -/

/-- No token begins with a blank. -/
theorem readToken_blank (blank : Text.isBlank head.char) :
    lookahead.readToken head rest = none := by
  have not_opening : ¬lookahead.char head = '[' := Text.ne_of_isBlank blank (by decide)
  have none : Kind.ofSign? (lookahead.char head) = none := by
    refine Option.eq_none_iff_forall_ne_some.mpr fun kind sign => ?_
    have isSign : head.char = kind.sign := Kind.eq_sign_of_ofSign? sign
    exact Text.ne_of_isBlank blank (by cases kind <;> decide) isSign
  rw [Lookahead.readToken, if_neg not_opening, none]
  rfl

theorem nextToken?_nil (split : view.marks = front ++ []) :
    view.nextToken? front.length = .ok none := by
  rw [nextToken?, if_neg]
  simp [split]

theorem nextToken?_cons (sound : IsSound view.offset view.marks)
    (split : view.marks = front ++ head :: rest) :
    view.nextToken? front.length =
      match view.placedToken (front.length + 1) (lookahead.readToken head rest) with
      | none => view.nextToken? (front ++ [head]).length
      | some (token, last) => .ok (some (front.length, token, last)) := by
  have length := length_eq split
  have inside : front.length < view.marks.length := by omega
  rw [nextToken?, if_pos inside, token?_eq sound split, ok_bind, length_concat]
  rfl

/-- The cursor gets from a token to the next one. -/
def Advances (view : View) (cursor : Nat) (next : Nat × Token × Nat) : Prop :=
  cursor ≤ next.1 ∧ next.1 < next.2.2 ∧ next.2.2 ≤ view.marks.length

theorem exists_nextToken? (sound : IsSound view.offset view.marks)
    (split : view.marks = front ++ text) :
    ∃ found, view.nextToken? front.length = .ok found ∧
      ∀ next ∈ found, view.Advances front.length next := by
  induction text generalizing front with
  | nil => exact ⟨none, nextToken?_nil split, nofun⟩
  | cons head rest induction =>
      have step := nextToken?_cons sound split
      cases read : lookahead.readToken head rest with
      | none =>
          obtain ⟨found, same, advances⟩ := induction (split_cons split)
          rw [read] at step
          refine ⟨found, step.trans same, fun next member => ?_⟩
          obtain ⟨start, further⟩ := advances next member
          rw [length_concat] at start
          exact ⟨Nat.le_of_succ_le start, further⟩
      | some found =>
          obtain ⟨token, after⟩ := found
          have shorter := lookahead.length_readToken_le read
          have length := length_eq split
          rw [read] at step
          refine ⟨_, step, ?_⟩
          rintro _ ⟨⟩
          have place : view.placeBefore after = view.marks.length - after.length := rfl
          refine ⟨Nat.le_refl _, ?_, ?_⟩
          · change front.length < view.placeBefore after
            omega
          · exact Nat.sub_le _ _

theorem passBlanks_eq (split : view.marks = front ++ text) {last : Nat}
    (start : front.length ≤ last) (inside : last ≤ view.marks.length) :
    (view.passBlanks front.length last).run =
      .ok (match (text.take (last - front.length)).findIdx? fun mark => !Text.isBlank mark.char with
        | none => .ok ()
        | some place => .error (.unexpected (front.length + place))) := by
  rw [passBlanks, slice_take split start inside, lift_bind]
  cases (text.take (last - front.length)).findIdx? fun mark => !Text.isBlank mark.char <;> rfl

/-- Nothing is passed over between a place and itself. -/
theorem passBlanks_self (split : view.marks = front ++ text) :
    (view.passBlanks front.length front.length).run = .ok (.ok ()) := by
  have inside : front.length ≤ view.marks.length := by
    rw [split, List.length_append]
    omega
  rw [passBlanks_eq split (Nat.le_refl _) inside, Nat.sub_self]
  rfl

theorem passBlanks_cons (split : view.marks = front ++ head :: rest) {last : Nat}
    (beyond : front.length < last) (inside : last ≤ view.marks.length) :
    (view.passBlanks front.length last).run =
      if Text.isBlank head.char then (view.passBlanks (front ++ [head]).length last).run
      else .ok (.error (.unexpected front.length)) := by
  have start : (front ++ [head]).length ≤ last := by rwa [length_concat]
  have gap : last - front.length = last - (front ++ [head]).length + 1 := by
    rw [length_concat]
    omega
  rw [passBlanks_eq split (Nat.le_of_lt beyond) inside,
    passBlanks_eq (split_cons split) start inside, gap, List.take_succ_cons, List.findIdx?_cons]
  by_cases blank : Text.isBlank head.char = true
  · rw [if_pos blank, blank]
    cases (rest.take _).findIdx? fun mark => !Text.isBlank mark.char with
    | none => rfl
    | some place =>
        simp only [Bool.not_true, Bool.false_eq_true, if_false, Option.map_some, length_concat]
        rw [Nat.add_right_comm, Nat.add_assoc]
  · rw [if_neg blank]
    simp [blank]

section Gaps

variable {gap : List Mark}

theorem split_gap (split : view.marks = front ++ (gap ++ text)) :
    view.marks = (front ++ gap) ++ text :=
  split.trans (List.append_assoc front gap text).symm

theorem nextToken?_gap (sound : IsSound view.offset view.marks)
    (split : view.marks = front ++ (gap ++ text)) (blanks : ∀ mark ∈ gap, Text.isBlank mark.char) :
    view.nextToken? front.length = view.nextToken? (front ++ gap).length := by
  induction gap generalizing front with
  | nil => rw [List.append_nil]
  | cons head rest induction =>
      obtain ⟨blank, later⟩ := List.forall_mem_cons.mp blanks
      have split_head : view.marks = front ++ head :: (rest ++ text) := split
      have none : lookahead.readToken head (rest ++ text) = none := readToken_blank blank
      have further := induction (split_cons split) later
      rw [nextToken?_cons sound split_head, none]
      rw [List.append_assoc, List.singleton_append] at further
      exact further

theorem passBlanks_gap (split : view.marks = front ++ (gap ++ text))
    (blanks : ∀ mark ∈ gap, Text.isBlank mark.char) {last : Nat}
    (start : (front ++ gap).length ≤ last) (inside : last ≤ view.marks.length) :
    (view.passBlanks front.length last).run = (view.passBlanks (front ++ gap).length last).run := by
  induction gap generalizing front with
  | nil => rw [List.append_nil]
  | cons head rest induction =>
      obtain ⟨blank, later⟩ := List.forall_mem_cons.mp blanks
      have whole : front ++ head :: rest = front ++ [head] ++ rest := by
        rw [List.append_assoc, List.singleton_append]
      have beyond : front.length < last := by
        rw [List.length_append, List.length_cons] at start
        omega
      rw [whole] at start ⊢
      rw [passBlanks_cons split beyond inside, if_pos blank,
        induction (split_cons split) later start]

end Gaps

/-! ## Reading -/

section Steps

variable {cursor start last : Nat} {token : Token}

theorem readFrom_end (next : view.nextToken? cursor = .ok none)
    (passed : (view.passBlanks cursor view.marks.length).run = .ok (.ok ())) :
    (view.readFrom cursor).run = .ok (.ok []) := by
  rw [readFrom, next, lift_bind]
  exact run_bind_ok _ passed

theorem readFrom_stops_end {error : ParseError} (next : view.nextToken? cursor = .ok none)
    (stops : (view.passBlanks cursor view.marks.length).run = .ok (.error error)) :
    (view.readFrom cursor).run = .ok (.error error) := by
  rw [readFrom, next, lift_bind]
  exact run_bind_error _ stops

theorem readFrom_stops {error : ParseError}
    (next : view.nextToken? cursor = .ok (some (start, token, last)))
    (stops : (view.passBlanks cursor start).run = .ok (.error error)) :
    (view.readFrom cursor).run = .ok (.error error) := by
  rw [readFrom, next, lift_bind]
  exact run_bind_error _ stops

theorem readFrom_test {test : TagTest} {result : Except ParseError Query}
    (next : view.nextToken? cursor = .ok (some (start, .test test, last)))
    (passed : (view.passBlanks cursor start).run = .ok (.ok ()))
    (further : cursor < last ∧ last ≤ view.marks.length)
    (later : (view.readFrom last).run = .ok result) :
    (view.readFrom cursor).run = .ok (result.map (.test test :: ·)) := by
  rw [readFrom, next, lift_bind]
  refine (run_bind_ok _ passed).trans ?_
  rw [dif_pos further]
  exact run_bind_pure _ later

/-- A group is read as a view of its own before what follows it. -/
theorem readFrom_group {first close : Nat} {contents : List Mark}
    (next : view.nextToken? cursor = .ok (some (start, .group first close, last)))
    (passed : (view.passBlanks cursor start).run = .ok (.ok ()))
    (further : cursor < last ∧ last ≤ view.marks.length)
    (sliced : view.slice first close = .ok contents)
    (smaller : contents.length < view.marks.length) :
    (view.readFrom cursor).run =
      (ExceptT.adapt (ParseError.inGroup start) (readFrom ⟨contents, view.offset + first⟩ 0) >>=
        fun exprs => view.readFrom last >>= fun query => pure (.group exprs :: query)).run := by
  rw [readFrom, next, lift_bind]
  refine (run_bind_ok _ passed).trans ?_
  rw [dif_pos further]
  simp only [sliced, lift_bind, dif_pos smaller]

end Steps

section Tokens

variable {gap : List Mark}

/-- Where a token comes next, the cursor gets to its start over blanks and from there to its end. -/
theorem next_of_readToken {token : Query.Token Mark} (sound : IsSound view.offset view.marks)
    (split : view.marks = front ++ (gap ++ head :: rest))
    (blanks : ∀ mark ∈ gap, Text.isBlank mark.char)
    (read : lookahead.readToken head rest = some (token, after)) :
    view.nextToken? front.length = .ok (some ((front ++ gap).length,
        Token.at ((front ++ gap).length + 1) token, view.placeBefore after)) ∧
      (view.passBlanks front.length (front ++ gap).length).run = .ok (.ok ()) ∧
      front.length < view.placeBefore after ∧ view.placeBefore after ≤ view.marks.length := by
  have split_head := split_gap split
  have length := length_eq split_head
  have inside : (front ++ gap).length ≤ view.marks.length := by omega
  have shorter := lookahead.length_readToken_le read
  have place : view.placeBefore after = view.marks.length - after.length := rfl
  refine ⟨?_, ?_, ?_, Nat.sub_le _ _⟩
  · rw [nextToken?_gap sound split blanks, nextToken?_cons sound split_head, read]
    rfl
  · rw [passBlanks_gap split blanks (Nat.le_refl _) inside, passBlanks_self split_head]
  · rw [List.length_append] at length
    omega

/-- Where a token has been read, what follows it is an end of the view. -/
theorem exists_split_after {token : Query.Token Mark} (split : view.marks = front ++ head :: rest)
    (read : lookahead.readToken head rest = some (token, after)) :
    ∃ further, view.marks = further ++ after := by
  obtain ⟨taken, whole⟩ := lookahead.suffix_of_readToken read
  exact ⟨front ++ taken, by rw [List.append_assoc, whole, split]⟩

theorem readFrom_of_group {contents : List Mark} (sound : IsSound view.offset view.marks)
    (split : view.marks = front ++ (gap ++ head :: rest))
    (blanks : ∀ mark ∈ gap, Text.isBlank mark.char)
    (read : lookahead.readToken head rest = some (.group contents, after)) :
    IsSound (view.offset + ((front ++ gap).length + 1)) contents ∧
      (view.readFrom front.length).run =
        (ExceptT.adapt (ParseError.inGroup (front ++ gap).length)
            (readFrom ⟨contents, view.offset + ((front ++ gap).length + 1)⟩ 0) >>= fun exprs =>
          view.readFrom (view.placeBefore after) >>= fun query =>
            pure (.group exprs :: query)).run := by
  obtain ⟨next, passed, further⟩ := next_of_readToken sound split blanks read
  have split_head := split_gap split
  obtain ⟨⟨partner, rfl, -⟩, contents_sound⟩ := (sound.of_split split_head).exists_of_group read
  have split_contents := split_cons split_head
  have sliced := slice_eq split_contents
  have ends : (front ++ gap ++ [head] ++ contents).length =
      (front ++ gap).length + 1 + contents.length := by
    rw [List.length_append, length_concat]
  rw [ends, length_concat] at sliced
  have smaller : contents.length < view.marks.length := by
    rw [split_contents]
    simp only [List.length_append, List.length_cons]
    omega
  exact ⟨contents_sound, readFrom_group next passed further sliced smaller⟩

end Tokens

theorem split_whole (marks : List Mark) (offset : Nat) :
    (View.mk marks offset).marks = [] ++ ([] ++ marks) := rfl

theorem split_nil_gap (split : view.marks = front ++ text) : view.marks = front ++ ([] ++ text) :=
  split

/-- The start of a token is counted from the end of the view. -/
theorem start_eq {size : Nat} (split : view.marks = front ++ head :: rest)
    (length : view.marks.length = size) : size - (rest.length + 1) = front.length := by
  rw [← length, length_eq split, Nat.add_sub_cancel]

/-- Reading by positions gives what reading with marks gives. -/
theorem readFrom_eq {size : Nat} {text gap : List Mark} (sound : IsSound view.offset view.marks)
    (split : view.marks = front ++ (gap ++ text)) (blanks : ∀ mark ∈ gap, Text.isBlank mark.char)
    (length : view.marks.length = size) :
    (view.readFrom front.length).run = .ok (lookahead.readView size text) := by
  -- The reader of marks passes each blank by itself, while the cursor stays until it gets to a
  -- token; the blanks in between are the gap.
  fun_induction lookahead.readView size text generalizing view front gap with
  | case1 size =>
      have split_nil := split_gap split
      have next := (nextToken?_gap sound split blanks).trans (nextToken?_nil split_nil)
      have ends : (front ++ gap).length = view.marks.length := by rw [split_nil, List.append_nil]
      have passed := passBlanks_gap split blanks (Nat.le_of_eq ends) (Nat.le_refl _)
      rw [← ends, passBlanks_self split_nil, ends] at passed
      exact readFrom_end next passed
  | case2 size head rest blank induction =>
      have split_blank : view.marks = front ++ ((gap ++ [head]) ++ rest) := by
        rw [split, List.append_assoc gap [head] rest, List.singleton_append]
      refine induction sound split_blank (fun mark member => ?_) length
      rcases List.mem_append.mp member with earlier | last
      · exact blanks mark earlier
      · cases List.mem_singleton.mp last
        exact blank
  | case3 size head rest not_blank none =>
      have split_head := split_gap split
      have start := start_eq split_head length
      obtain ⟨found, later, advances⟩ := exists_nextToken? sound (split_cons split_head)
      have next : view.nextToken? front.length = .ok found := by
        rw [nextToken?_gap sound split blanks, nextToken?_cons sound split_head, none]
        exact later
      have stops {last : Nat} (beyond : (front ++ gap).length < last)
          (inside : last ≤ view.marks.length) :
          (view.passBlanks front.length last).run =
            .ok (.error (.unexpected (size - (rest.length + 1)))) := by
        rw [passBlanks_gap split blanks (Nat.le_of_lt beyond) inside,
          passBlanks_cons split_head beyond inside, start,
          if_neg (show ¬Text.isBlank head.char = true from not_blank)]
      have beyond : (front ++ gap).length < view.marks.length := by
        have := length_eq split_head
        omega
      cases found with
      | none => exact readFrom_stops_end next (stops beyond (Nat.le_refl _))
      | some found =>
          obtain ⟨after, further, inside⟩ := advances found rfl
          rw [length_concat] at after
          exact readFrom_stops next (stops after (by omega))
  | case4 size head rest not_blank test after found induction =>
      obtain ⟨next, passed, further⟩ := next_of_readToken sound split blanks found
      obtain ⟨taken, split_after⟩ := exists_split_after (split_gap split) found
      have later := induction sound (split_nil_gap split_after) (List.forall_mem_nil _) length
      rw [← placeBefore_eq split_after] at later
      exact readFrom_test next passed further later
  | case5 size head rest not_blank contents after found cause inner induction =>
      obtain ⟨contents_sound, reads⟩ := readFrom_of_group sound split blanks found
      have nested := induction contents_sound (split_whole contents _) (List.forall_mem_nil _) rfl
      rw [inner] at nested
      rw [start_eq (split_gap split) length]
      exact reads.trans (run_bind_error _ (run_adapt _ nested))
  | case6 size head rest not_blank contents after found exprs inner induction induction_after =>
      obtain ⟨contents_sound, reads⟩ := readFrom_of_group sound split blanks found
      have nested := induction contents_sound (split_whole contents _) (List.forall_mem_nil _) rfl
      obtain ⟨taken, split_after⟩ := exists_split_after (split_gap split) found
      have later := induction_after sound (split_nil_gap split_after) (List.forall_mem_nil _) length
      rw [inner] at nested
      rw [← placeBefore_eq split_after] at later
      refine reads.trans ((run_bind_ok _ (run_adapt _ nested)).trans ?_)
      exact run_bind_pure _ later

end View

theorem parseByPosition_eq (text : String) : parseByPosition text = .ok (parse text) := by
  have sound := Mark.isSound_ofText text.toList
  have marks : Mark.assemble 0 text.toList (Mark.quotes 0 text.toList)
      ((Mark.ofText text.toList).map Mark.closing) = Mark.ofText text.toList :=
    assemble_closings _ _ _ _
  rw [parseByPosition, closingBrackets_eq]
  simp only [View.ok_bind, marks]
  exact View.readFrom_eq sound (View.split_whole _ 0) (List.forall_mem_nil _) rfl

/-- The brackets that are paired in a text are nested.  In every view that the reader comes to the
marks point to the right and, but for quotes, not beyond it, and each token leaves less to be read.
So every step by positions can be taken, and together they give what reading with marks gives. -/
theorem parse_takes_every_step (text : String) :
    let marks := Mark.ofText text.toList
    closingBrackets text.toList (Mark.quotes 0 text.toList) = .ok (marks.map Mark.closing) ∧
      Mark.IsNested marks ∧
      (∀ view, Mark.IsReached marks view →
        (∃ offset, IsSound offset view) ∧ Mark.ReadsOn view) ∧
      parseByPosition text = .ok (parse text) := by
  refine ⟨closingBrackets_eq _, (Mark.isSound_ofText _).toIsNested, fun view reached => ?_,
    parseByPosition_eq text⟩
  obtain ⟨offset, sound⟩ := Mark.exists_isSound reached
  exact ⟨⟨offset, sound⟩, sound.readsOn⟩

/-- The bracket that closes an inner group is in the view of the outer one, the last one in none. -/
theorem parse_takes_every_step_inner :
    let marks := Mark.ofText "[ [-a]]]".toList
    ∃ view, Mark.IsReached marks view ∧ Mark.lookahead.spell view = " [-a]" ∧
      ∃ offset, IsSound offset view := by
  intro marks
  have read : Mark.lookahead.readToken ⟨'[', 0, none, some 6⟩ (marks.drop 1) =
      some (.group ((marks.drop 1).take 5), marks.drop 7) := by rfl
  have reached : Mark.IsReached marks ((marks.drop 1).take 5) := .inr (.group (by decide) read)
  have sound := ((parse_takes_every_step "[ [-a]]]").2.2.1 _ reached).1
  exact ⟨_, reached, by decide, sound⟩

end Query
end TagStore
