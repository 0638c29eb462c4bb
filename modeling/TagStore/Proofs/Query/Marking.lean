import TagStore.Proofs.Query.Marks

/-!
# The marks of a text

The passes over a text that mark its quotes and brackets agree with searching from each position on.
Hence reading a query with marks gives what reading it by searching gives, errors included.
-/

namespace TagStore
namespace Query
namespace Mark

/-- The marks of the end of a text whose first characters are hidden in a quoted value. -/
def marksFrom (start : Nat) (afterColon : Bool) (hidden : Nat) (text : List Char) : List Mark :=
  assemble start text (quotes start text)
    (closings start (text.zip (shown start afterColon hidden (text.zip (quotes start text))))).1

/-- The closing brackets there that close nothing. -/
def unmatchedFrom (start : Nat) (afterColon : Bool) (hidden : Nat) (text : List Char) : List Nat :=
  (closings start (text.zip (shown start afterColon hidden (text.zip (quotes start text))))).2

theorem ofText_eq (text : List Char) : ofText text = marksFrom 0 false 0 text := rfl

/-! ## Quotes -/

theorem head_quotes (start : Nat) (text : List Char) :
    (quotes start text).head?.join = (Search.quote text).map (start + ·) := by
  induction text generalizing start with
  | nil => rfl
  | cons c rest induction =>
      rw [quotes, Search.quote, List.findIdx?_cons]
      by_cases isQuote : c = '"'
      · simp [isQuote]
      · simp only [isQuote, if_false, List.head?_cons, Option.join_some, beq_iff_eq, induction,
          Search.quote, Option.map_map]
        congr 1
        funext size
        simp only [Function.comp_apply]
        omega

theorem quote_after (start : Nat) (rest : List Char) :
    (rest.zip (quotes start rest))[1]?.bind (·.2) =
      (Search.quote (rest.drop 1)).map (start + 1 + ·) := by
  cases rest with
  | nil => rfl
  | cons c rest =>
      rw [← head_quotes]
      simp only [quotes, List.drop_succ_cons, List.drop_zero, List.zip_cons_cons,
        List.getElem?_cons_succ]
      cases rest with
      | nil => rfl
      | cons d rest => simp [quotes]

/-! ## One character -/

theorem marksFrom_hidden (start hidden : Nat) (afterColon : Bool) (c : Char) (rest : List Char) :
    marksFrom start afterColon (hidden + 1) (c :: rest) =
      ⟨c, start, (Search.quote (c :: rest)).map (start + ·), none⟩ ::
        marksFrom (start + 1) (c == ':') hidden rest := by
  rw [← head_quotes]
  simp [marksFrom, quotes, shown, closings, assemble]

theorem unmatchedFrom_hidden (start hidden : Nat) (afterColon : Bool) (c : Char)
    (rest : List Char) :
    unmatchedFrom start afterColon (hidden + 1) (c :: rest) =
      unmatchedFrom (start + 1) (c == ':') hidden rest := by
  simp [unmatchedFrom, quotes, shown, closings]

/-- The number of characters that are hidden after a character. -/
def hiddenAfter (afterColon : Bool) (c : Char) (rest : List Char) : Nat :=
  (Search.skipped afterColon c rest).elim 0 (· + 2)

theorem hidden_eq (start : Nat) (afterColon : Bool) (c : Char) (rest : List Char) :
    (if c = '"' && afterColon then (rest.zip (quotes (start + 1) rest))[1]?.bind (·.2)
      else none).elim 0 (· - start) = hiddenAfter afterColon c rest := by
  rw [hiddenAfter, Search.skipped]
  split
  · rw [quote_after]
    cases Search.quote (rest.drop 1) with
    | none => rfl
    | some size =>
        simp only [Option.map_some, Option.elim_some]
        omega
  · rfl

theorem marksFrom_shown (start : Nat) (afterColon : Bool) (c : Char) (rest : List Char) :
    marksFrom start afterColon 0 (c :: rest) =
      ⟨c, start, (Search.quote (c :: rest)).map (start + ·),
          if c = '[' then
            (unmatchedFrom (start + 1) (c == ':') (hiddenAfter afterColon c rest) rest).head?
          else none⟩ ::
        marksFrom (start + 1) (c == ':') (hiddenAfter afterColon c rest) rest := by
  rw [← head_quotes, ← hidden_eq start, marksFrom, unmatchedFrom]
  simp only [quotes, List.zip_cons_cons, shown, closings]
  by_cases closes : c = ']'
  · simp [closes, assemble, marksFrom]
  · by_cases opens : c = '['
    · simp [opens, assemble, marksFrom]
    · simp [closes, opens, assemble, marksFrom]

theorem unmatchedFrom_shown (start : Nat) (afterColon : Bool) (c : Char) (rest : List Char) :
    unmatchedFrom start afterColon 0 (c :: rest) =
      if c = ']' then
        start :: unmatchedFrom (start + 1) (c == ':') (hiddenAfter afterColon c rest) rest
      else if c = '[' then
        (unmatchedFrom (start + 1) (c == ':') (hiddenAfter afterColon c rest) rest).tail
      else unmatchedFrom (start + 1) (c == ':') (hiddenAfter afterColon c rest) rest := by
  rw [← hidden_eq start]
  simp only [unmatchedFrom, quotes, List.zip_cons_cons, shown, closings, Bool.true_and, beq_iff_eq]
  split
  · rfl
  · split <;> rfl

/-! ## Hidden characters -/

theorem marksFrom_after_hidden (start last : Nat) (afterColon : Bool) {text : List Char}
    (closes : text[last]? = some '"') :
    (marksFrom start afterColon (last + 1) text).drop (last + 1) =
      marksFrom (start + (last + 1)) false 0 (text.drop (last + 1)) := by
  induction last generalizing start afterColon text with
  | zero =>
      cases text with
      | nil => cases closes
      | cons c rest =>
          cases closes
          rw [marksFrom_hidden]
          rfl
  | succ last induction =>
      cases text with
      | nil => cases closes
      | cons c rest =>
          rw [marksFrom_hidden, List.drop_succ_cons, induction (start + 1) (c == ':') closes,
            List.drop_succ_cons, show start + 1 + (last + 1) = start + (last + 1 + 1) by omega]

theorem unmatchedFrom_after_hidden (start last : Nat) (afterColon : Bool) {text : List Char}
    (closes : text[last]? = some '"') :
    unmatchedFrom start afterColon (last + 1) text =
      unmatchedFrom (start + (last + 1)) false 0 (text.drop (last + 1)) := by
  induction last generalizing start afterColon text with
  | zero =>
      cases text with
      | nil => cases closes
      | cons c rest =>
          cases closes
          rw [unmatchedFrom_hidden]
          rfl
  | succ last induction =>
      cases text with
      | nil => cases closes
      | cons c rest =>
          rw [unmatchedFrom_hidden, induction (start + 1) (c == ':') closes, List.drop_succ_cons,
            show start + 1 + (last + 1) = start + (last + 1 + 1) by omega]

theorem closes_of_skipped {afterColon : Bool} {c : Char} {rest : List Char} {size : Nat}
    (skip : Search.skipped afterColon c rest = some size) : rest[size + 1]? = some '"' := by
  obtain ⟨_, _, found⟩ := Search.skipped_eq_some_iff.mp skip
  rw [Search.quote, List.findIdx?_eq_some_iff_getElem] at found
  obtain ⟨inside, closes, _⟩ := found
  have closes : (rest.drop 1)[size] = '"' := eq_of_beq closes
  rw [Nat.add_comm, ← List.getElem?_drop, List.getElem?_eq_getElem inside, closes]

/-! ## Agreement with searching -/

theorem exists_marksFrom_cons (start hidden : Nat) (afterColon : Bool) (c : Char)
    (rest : List Char) :
    ∃ closing later, marksFrom start afterColon hidden (c :: rest) =
      ⟨c, start, (Search.quote (c :: rest)).map (start + ·), closing⟩ ::
        marksFrom (start + 1) (c == ':') later rest := by
  cases hidden with
  | zero => exact ⟨_, _, marksFrom_shown start afterColon c rest⟩
  | succ hidden => exact ⟨_, _, marksFrom_hidden start hidden afterColon c rest⟩

theorem map_char_marksFrom (start hidden : Nat) (afterColon : Bool) (text : List Char) :
    (marksFrom start afterColon hidden text).map char = text := by
  induction text generalizing start hidden afterColon with
  | nil => rfl
  | cons c rest induction =>
      obtain ⟨closing, later, split⟩ := exists_marksFrom_cons start hidden afterColon c rest
      rw [split, List.map_cons, induction]

theorem map_add_map (start width : Nat) (size : Option Nat) :
    (size.map (· + width)).map (start + ·) = size.map (start + width + ·) := by
  rw [Option.map_map]
  congr 1
  funext size
  simp only [Function.comp_apply]
  omega

theorem map_sub_map_add (start : Nat) (size : Option Nat) :
    (size.map (start + ·)).map (· - start) = size := by
  cases size with
  | none => rfl
  | some size => simp

/-- The closing brackets that close nothing are those that searches of every depth end at. -/
theorem getElem?_unmatchedFrom (start depth : Nat) (afterColon : Bool) (text : List Char) :
    (unmatchedFrom start afterColon 0 text)[depth]? =
      (Search.inside depth afterColon text).map (start + ·) := by
  fun_induction Search.inside depth afterColon text generalizing start with
  | case1 => rfl
  | case2 afterColon rest =>
      rw [unmatchedFrom_shown]
      rfl
  | case3 afterColon rest depth induction =>
      rw [unmatchedFrom_shown, if_pos rfl, hiddenAfter, Search.skipped_of_ne (by decide),
        List.getElem?_cons_succ, map_add_map]
      exact induction (start + 1)
  | case4 depth afterColon rest _ induction =>
      rw [unmatchedFrom_shown, if_neg (by decide), if_pos rfl, hiddenAfter,
        Search.skipped_of_ne (by decide), List.getElem?_tail, map_add_map]
      exact induction (start + 1)
  | case5 depth afterColon c rest not_closing not_opening size skip induction =>
      rw [unmatchedFrom_shown, if_neg not_closing, if_neg not_opening, hiddenAfter]
      have skip : Search.skipped afterColon c rest = some size := skip
      rw [skip, Option.elim_some, unmatchedFrom_after_hidden _ _ _ (closes_of_skipped skip),
        map_add_map, show start + (size + 3) = start + 1 + (size + 1 + 1) by omega]
      exact induction _
  | case6 depth afterColon c rest not_closing not_opening step induction =>
      have step : Search.skipped afterColon c rest = none := step
      rw [unmatchedFrom_shown, if_neg not_closing, if_neg not_opening, hiddenAfter, step,
        map_add_map]
      exact induction (start + 1)

/-- The marks of a text are in step with a search from its start. -/
theorem paired_marksFrom (start : Nat) (afterColon : Bool) (text : List Char) :
    Paired afterColon (marksFrom start afterColon 0 text) := by
  match text with
  | [] => exact .nil
  | c :: rest =>
      rw [marksFrom_shown]
      cases skip : Search.skipped afterColon c rest with
      | some size =>
          have skipped := skip
          rw [← map_char_marksFrom (start + 1) (hiddenAfter afterColon c rest) (c == ':') rest]
            at skipped
          refine .skip skipped ?_
          rw [hiddenAfter, skip, Option.elim_some,
            marksFrom_after_hidden _ _ _ (closes_of_skipped skip)]
          exact paired_marksFrom _ false _
      | none =>
          rw [hiddenAfter, skip, Option.elim_none]
          have later := paired_marksFrom (start + 1) (c == ':') rest
          by_cases opens : c = '['
          · subst opens
            refine .opening rfl ?_ later
            rw [map_char_marksFrom]
            simp only [lookahead, if_true]
            rw [List.head?_eq_getElem?]
            exact (congrArg _ (getElem?_unmatchedFrom _ _ _ _)).trans (map_sub_map_add _ _)
          · exact .step opens (by rw [map_char_marksFrom, skip]) later
  termination_by text.length
  decreasing_by
    all_goals simp only [List.length_cons, List.length_drop]
    all_goals omega

/-- The marks of a text have the quotes where searches find them. -/
theorem sighted_marksFrom (start hidden : Nat) (afterColon : Bool) (text : List Char) :
    Sighted (marksFrom start afterColon hidden text) := by
  induction text generalizing start hidden afterColon with
  | nil =>
      intro text suffix
      rw [List.suffix_nil.mp suffix]
      rfl
  | cons c rest induction =>
      have chars := map_char_marksFrom start hidden afterColon (c :: rest)
      obtain ⟨closing, later, split⟩ := exists_marksFrom_cons start hidden afterColon c rest
      rw [split] at chars ⊢
      intro text suffix
      rcases List.suffix_cons_iff.mp suffix with rfl | suffix
      · rw [chars]
        change _ = Option.filter _ (((Search.quote (c :: rest)).map (start + ·)).map (· - start))
        rw [map_sub_map_add]
        cases found : Search.quote (c :: rest) with
        | none => rfl
        | some size =>
            have inside := (List.findIdx?_eq_some_iff_getElem.mp found).1
            rw [← chars, List.length_map] at inside
            rw [Option.filter_some, if_pos (by simpa using inside)]
      · exact induction _ _ _ text suffix

/-- Reading a query with the marks of the whole text is reading it by searching. -/
theorem read_ofText (text : List Char) :
    lookahead.read (ofText text) = Search.lookahead.read text := by
  have chars : (ofText text).map char = text := map_char_marksFrom 0 0 false text
  have same := readView_map text.length (sighted_marksFrom 0 0 false text)
    (paired_marksFrom 0 false text)
  rw [← ofText_eq, chars] at same
  rw [Lookahead.read, Lookahead.read, same, ← List.length_map (f := char), chars]

end Mark

theorem parse_eq_read (text : String) : parse text = Search.lookahead.read text.toList :=
  Mark.read_ofText text.toList

end Query
end TagStore
