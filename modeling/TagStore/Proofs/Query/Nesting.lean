import TagStore.Proofs.Query.Views

/-!
# Nested brackets

The brackets that are paired in a text are nested, whatever else the text holds: an opening bracket
takes the first closing bracket behind it that those in between have left.
-/

namespace TagStore
namespace Query
namespace Mark

/-- Marks that stand from a position on, and where those closing brackets are that close nothing. -/
inductive Closes : (start : Nat) → List Mark → (unmatched : List Nat) → Prop
  /-- There are no marks. -/
  | nil {start : Nat} : Closes start [] []
  /-- A mark opens and closes nothing. -/
  | other {start : Nat} {head : Mark} {rest : List Mark} {unmatched : List Nat} :
      head.position = start → head.closing = none → Closes (start + 1) rest unmatched →
      Closes start (head :: rest) unmatched
  /-- A closing bracket is left to what stands before it. -/
  | closing {start : Nat} {head : Mark} {rest : List Mark} {unmatched : List Nat} :
      head.position = start → head.closing = none → head.char = ']' →
      Closes (start + 1) rest unmatched → Closes start (head :: rest) (start :: unmatched)
  /-- An opening bracket takes the first one that is left. -/
  | opening {start : Nat} {head : Mark} {rest : List Mark} {unmatched : List Nat} :
      head.position = start → head.closing = unmatched.head? → head.char = '[' →
      Closes (start + 1) rest unmatched → Closes start (head :: rest) unmatched.tail

/-- A bracket opens a group, and another one among the marks closes it further on. -/
structure HasPartner (marks : List Mark) (mark : Mark) (close : Nat) : Prop where
  opens : mark.char = '['
  behind : mark.position < close
  partner : ∃ partner ∈ marks, partner.position = close ∧ partner.char = ']'

theorem HasPartner.cons {marks : List Mark} {head mark : Mark} {close : Nat}
    (paired : HasPartner marks mark close) : HasPartner (head :: marks) mark close := by
  obtain ⟨partner, member, isPartner⟩ := paired.partner
  exact ⟨paired.opens, paired.behind, partner, List.mem_cons_of_mem head member, isPartner⟩

theorem closes_marksFrom (start hidden : Nat) (afterColon : Bool) (text : List Char) :
    Closes start (marksFrom start afterColon hidden text)
      (unmatchedFrom start afterColon hidden text) := by
  induction text generalizing start hidden afterColon with
  | nil => exact .nil
  | cons c rest induction =>
      cases hidden with
      | succ hidden =>
          rw [marksFrom_hidden, unmatchedFrom_hidden]
          exact .other rfl rfl (induction _ _ _)
      | zero =>
          have later := induction (start + 1) (hiddenAfter afterColon c rest) (c == ':')
          rw [marksFrom_shown, unmatchedFrom_shown]
          by_cases closes : c = ']'
          · rw [if_pos closes]
            exact .closing rfl (if_neg (by simp [closes])) closes later
          · rw [if_neg closes]
            by_cases opens : c = '['
            · rw [if_pos opens, if_pos opens]
              exact .opening rfl rfl opens later
            · rw [if_neg opens, if_neg opens]
              exact .other rfl rfl later

/-- A mark that is closed comes after a mark that is not. -/
theorem mem_of_closing {head mark : Mark} {rest : List Mark} (none : head.closing = none)
    (member : mark ∈ head :: rest) {close : Nat} (closing : close ∈ mark.closing) :
    mark ∈ rest := by
  rcases List.mem_cons.mp member with rfl | later
  · exact absurd (none ▸ closing) (Option.not_mem_none close)
  · exact later

section Closes

variable {start : Nat} {marks : List Mark} {unmatched : List Nat}

theorem Closes.position_eq (closes : Closes start marks unmatched) {place : Nat} {mark : Mark}
    (here : marks[place]? = some mark) : mark.position = start + place := by
  induction closes generalizing place with
  | nil => cases here
  | other position _ _ induction | closing position _ _ _ induction
  | opening position _ _ _ induction =>
      cases place with
      | zero =>
          cases here
          exact position
      | succ place =>
          rw [List.getElem?_cons_succ] at here
          rw [induction here]
          omega

theorem Closes.start_le (closes : Closes start marks unmatched) {mark : Mark}
    (member : mark ∈ marks) : start ≤ mark.position := by
  obtain ⟨place, here⟩ := List.mem_iff_getElem?.mp member
  rw [closes.position_eq here]
  exact Nat.le_add_right start place

/-- What is left are closing brackets of the text. -/
theorem Closes.exists_of_mem (closes : Closes start marks unmatched) {close : Nat}
    (left : close ∈ unmatched) : ∃ mark ∈ marks, mark.position = close ∧ mark.char = ']' := by
  induction closes with
  | nil => cases left
  | other _ _ _ induction =>
      obtain ⟨mark, member, found⟩ := induction left
      exact ⟨mark, List.mem_cons_of_mem _ member, found⟩
  | closing position _ isClosing _ induction =>
      rcases List.mem_cons.mp left with rfl | left
      · exact ⟨_, List.mem_cons_self, position, isClosing⟩
      · obtain ⟨mark, member, found⟩ := induction left
        exact ⟨mark, List.mem_cons_of_mem _ member, found⟩
  | opening _ _ _ _ induction =>
      obtain ⟨mark, member, found⟩ := induction (List.mem_of_mem_tail left)
      exact ⟨mark, List.mem_cons_of_mem _ member, found⟩

theorem Closes.start_le_of_mem (closes : Closes start marks unmatched) {close : Nat}
    (left : close ∈ unmatched) : start ≤ close := by
  obtain ⟨mark, member, rfl, -⟩ := closes.exists_of_mem left
  exact closes.start_le member

theorem Closes.increasing (closes : Closes start marks unmatched) :
    unmatched.Pairwise (· < ·) := by
  induction closes with
  | nil => exact .nil
  | other _ _ _ induction => exact induction
  | closing _ _ _ later induction =>
      exact List.pairwise_cons.mpr ⟨fun _ left => later.start_le_of_mem left, induction⟩
  | opening _ _ _ _ induction => exact induction.tail

theorem Closes.hasPartner (closes : Closes start marks unmatched) {mark : Mark}
    (member : mark ∈ marks) {close : Nat} (closing : close ∈ mark.closing) :
    HasPartner marks mark close := by
  induction closes with
  | nil => cases member
  | other _ none _ induction | closing _ none _ _ induction =>
      exact (induction (mem_of_closing none member closing)).cons
  | opening position first opens later induction =>
      rcases List.mem_cons.mp member with rfl | member
      · have left := List.mem_of_mem_head? (first ▸ closing)
        have behind := later.start_le_of_mem left
        obtain ⟨partner, found, isPartner⟩ := later.exists_of_mem left
        exact ⟨opens, position ▸ behind, partner, List.mem_cons_of_mem _ found, isPartner⟩
      · exact (induction member).cons

/-- What is left stands before a pair of brackets or behind it. -/
theorem Closes.apart (closes : Closes start marks unmatched) {mark : Mark} (member : mark ∈ marks)
    {close : Nat} (closing : close ∈ mark.closing) {other : Nat} (left : other ∈ unmatched) :
    other < mark.position ∨ close < other := by
  induction closes with
  | nil => cases member
  | other _ none _ induction => exact induction (mem_of_closing none member closing) left
  | closing _ none _ later induction =>
      have member := mem_of_closing none member closing
      rcases List.mem_cons.mp left with rfl | left
      · exact .inl (later.start_le member)
      · exact induction member left
  | opening _ first _ later induction =>
      rcases List.mem_cons.mp member with rfl | member
      · obtain ⟨others, rfl⟩ := List.head?_eq_some_iff.mp (first ▸ closing)
        exact .inr (List.rel_of_pairwise_cons later.increasing left)
      · exact induction member (List.mem_of_mem_tail left)

/-- A bracket that closes a group is not left. -/
theorem Closes.not_mem (closes : Closes start marks unmatched) {mark : Mark}
    (member : mark ∈ marks) {close : Nat} (closing : close ∈ mark.closing) : close ∉ unmatched := by
  intro left
  have behind := (closes.hasPartner member closing).behind
  have apart := closes.apart member closing left
  omega

/-- Two pairs of brackets do not cross. -/
theorem Closes.uncrossed (closes : Closes start marks unmatched) {outer inner : Mark}
    (outer_mem : outer ∈ marks) (inner_mem : inner ∈ marks) {last close : Nat}
    (outer_closing : last ∈ outer.closing) (inner_closing : close ∈ inner.closing)
    (after : outer.position < inner.position) (before : inner.position < last) : close < last := by
  induction closes with
  | nil => cases outer_mem
  | other _ none _ induction | closing _ none _ _ induction =>
      exact induction (mem_of_closing none outer_mem outer_closing)
        (mem_of_closing none inner_mem inner_closing)
  | opening position first _ later induction =>
      rcases List.mem_cons.mp outer_mem with rfl | outer_later
      · rcases List.mem_cons.mp inner_mem with rfl | inner_later
        · exact absurd after (Nat.lt_irrefl _)
        · have left := List.mem_of_mem_head? (first ▸ outer_closing)
          exact (later.apart inner_later inner_closing left).resolve_left (Nat.lt_asymm before)
      · rcases List.mem_cons.mp inner_mem with rfl | inner_later
        · have := later.start_le outer_later
          omega
        · exact induction outer_later inner_later

/-- No bracket closes two groups. -/
theorem Closes.once (closes : Closes start marks unmatched) {first second : Mark}
    (first_mem : first ∈ marks) (second_mem : second ∈ marks) {close : Nat}
    (first_closing : close ∈ first.closing) (second_closing : close ∈ second.closing) :
    first = second := by
  induction closes with
  | nil => cases first_mem
  | other _ none _ induction | closing _ none _ _ induction =>
      exact induction (mem_of_closing none first_mem first_closing)
        (mem_of_closing none second_mem second_closing)
  | opening _ head _ later induction =>
      rcases List.mem_cons.mp first_mem with rfl | first_later
      · rcases List.mem_cons.mp second_mem with rfl | second_later
        · rfl
        · have left := List.mem_of_mem_head? (head ▸ first_closing)
          exact absurd left (later.not_mem second_later second_closing)
      · rcases List.mem_cons.mp second_mem with rfl | second_later
        · have left := List.mem_of_mem_head? (head ▸ second_closing)
          exact absurd left (later.not_mem first_later first_closing)
        · exact induction first_later second_later

end Closes

/-! ## Views -/

/-- The pairs of brackets among some marks are nested in each other. -/
structure IsNested (marks : List Mark) : Prop where
  /-- Both brackets of a pair are among the marks, in order. -/
  hasPartner : ∀ mark ∈ marks, ∀ close ∈ mark.closing, HasPartner marks mark close
  /-- A group that is opened within another one is closed within it. -/
  uncrossed : ∀ outer ∈ marks, ∀ inner ∈ marks, ∀ last ∈ outer.closing, ∀ close ∈ inner.closing,
    outer.position < inner.position → inner.position < last → close < last
  /-- A bracket closes one group at most. -/
  once : ∀ first ∈ marks, ∀ second ∈ marks, ∀ close ∈ first.closing, close ∈ second.closing →
    first = second

/-- A view that begins at a position of the text holds all that its marks point to, but for quotes
that lie behind it. -/
structure IsSound (offset : Nat) (view : List Mark) : Prop extends IsNested view where
  /-- Every mark stands at its place. -/
  position : ∀ place mark, view[place]? = some mark → mark.position = offset + place
  /-- No mark points back to a quote. -/
  quote : ∀ mark ∈ view, ∀ quote ∈ mark.quote, mark.position ≤ quote

theorem Closes.isNested {start : Nat} {marks : List Mark} {unmatched : List Nat}
    (closes : Closes start marks unmatched) : IsNested marks where
  hasPartner _ member _ closing := closes.hasPartner member closing
  uncrossed _ outer _ inner _ last _ close := closes.uncrossed outer inner last close
  once _ first _ second _ closing := closes.once first second closing

theorem quote_marksFrom (start hidden : Nat) (afterColon : Bool) {text : List Char} {mark : Mark}
    (member : mark ∈ marksFrom start afterColon hidden text) {quote : Nat}
    (given : quote ∈ mark.quote) : mark.position ≤ quote := by
  induction text generalizing start hidden afterColon with
  | nil => cases member
  | cons c rest induction =>
      obtain ⟨closing, later, split⟩ := exists_marksFrom_cons start hidden afterColon c rest
      rw [split] at member
      rcases List.mem_cons.mp member with rfl | member
      · obtain ⟨size, -, rfl⟩ := Option.map_eq_some_iff.mp given
        exact Nat.le_add_right start size
      · exact induction _ _ _ member

theorem isSound_ofText (text : List Char) : IsSound 0 (ofText text) where
  toIsNested := (closes_marksFrom 0 0 false text).isNested
  position _ _ := (closes_marksFrom 0 0 false text).position_eq
  quote _ member _ := quote_marksFrom 0 0 false member

section Views

variable {offset : Nat} {view rest : List Mark} {head : Mark}

theorem IsSound.start_le (sound : IsSound offset view) {mark : Mark} (member : mark ∈ view) :
    offset ≤ mark.position := by
  obtain ⟨place, here⟩ := List.mem_iff_getElem?.mp member
  rw [sound.position place mark here]
  exact Nat.le_add_right offset place

theorem IsSound.head_position (sound : IsSound offset (head :: rest)) : head.position = offset :=
  sound.position 0 head rfl

theorem IsSound.tail (sound : IsSound offset (head :: rest)) : IsSound (offset + 1) rest where
  hasPartner mark member close closing := by
    have paired := sound.hasPartner mark (List.mem_cons_of_mem _ member) close closing
    obtain ⟨partner, found, same, isPartner⟩ := paired.partner
    refine ⟨paired.opens, paired.behind, partner, ?_, same, isPartner⟩
    rcases List.mem_cons.mp found with rfl | later
    · have := sound.start_le (List.mem_cons_of_mem _ member)
      have := sound.head_position
      have := paired.behind
      omega
    · exact later
  uncrossed outer outer_mem inner inner_mem :=
    sound.uncrossed outer (List.mem_cons_of_mem _ outer_mem) inner
      (List.mem_cons_of_mem _ inner_mem)
  once first first_mem second second_mem :=
    sound.once first (List.mem_cons_of_mem _ first_mem) second (List.mem_cons_of_mem _ second_mem)
  position place mark here := by
    rw [sound.position (place + 1) mark here]
    omega
  quote mark member := sound.quote mark (List.mem_cons_of_mem _ member)

theorem IsSound.drop (sound : IsSound offset view) (size : Nat) :
    IsSound (offset + size) (view.drop size) := by
  induction size generalizing offset view with
  | zero => exact sound
  | succ size induction =>
      cases view with
      | nil => exact ⟨⟨nofun, nofun, nofun⟩, nofun, nofun⟩
      | cons head rest =>
          have later := induction sound.tail
          rwa [show offset + 1 + size = offset + (size + 1) by omega] at later

theorem IsSound.of_split (sound : IsSound offset view) {front text : List Mark}
    (split : view = front ++ text) : IsSound (offset + front.length) text := by
  have later := sound.drop front.length
  rwa [split, List.drop_left] at later

theorem IsSound.of_suffix (sound : IsSound offset view) {text : List Mark}
    (suffix : text <:+ view) : ∃ later, IsSound later text := by
  obtain ⟨front, split⟩ := suffix
  exact ⟨_, sound.of_split split.symm⟩

/-- The bracket that closes a group stands where the mark of the opening one says. -/
theorem IsSound.exists_split (sound : IsSound offset (head :: rest)) {close : Nat}
    (closing : close ∈ head.closing) : ∃ contents partner after,
      rest = contents ++ partner :: after ∧ close = offset + 1 + contents.length ∧
        partner.position = close := by
  have paired := sound.hasPartner head List.mem_cons_self close closing
  obtain ⟨partner, member, same, -⟩ := paired.partner
  have behind := paired.behind
  rcases List.mem_cons.mp member with rfl | member
  · omega
  · obtain ⟨contents, after, rfl⟩ := List.append_of_mem member
    have here : (contents ++ partner :: after)[contents.length]? = some partner := by simp
    have position := sound.tail.position _ partner here
    exact ⟨contents, partner, after, rfl, by omega, same⟩

theorem IsSound.mem_take_iff (sound : IsSound offset view) {mark : Mark} {size : Nat} :
    mark ∈ view.take size ↔ mark ∈ view ∧ mark.position < offset + size := by
  constructor
  · intro member
    obtain ⟨place, here⟩ := List.mem_iff_getElem?.mp member
    rw [List.getElem?_take] at here
    split at here
    · rw [sound.position place mark here]
      exact ⟨List.mem_of_getElem? here, by omega⟩
    · cases here
  · rintro ⟨member, before⟩
    obtain ⟨place, here⟩ := List.mem_iff_getElem?.mp member
    rw [sound.position place mark here] at before
    refine List.mem_of_getElem? (i := place) ?_
    rw [List.getElem?_take_of_lt (by omega), here]

/-- What is between the brackets of a group is a sound view. -/
theorem IsSound.contents (sound : IsSound offset (head :: rest)) {close : Nat}
    (closing : close ∈ head.closing) :
    IsSound (offset + 1) (rest.take (close - (offset + 1))) where
  hasPartner mark member last inner := by
    obtain ⟨listed, before⟩ := sound.tail.mem_take_iff.mp member
    have paired := sound.tail.hasPartner mark listed last inner
    obtain ⟨partner, found, same, isPartner⟩ := paired.partner
    refine ⟨paired.opens, paired.behind, partner, ?_, same, isPartner⟩
    -- The inner group ends before the outer one, so its bracket is not cut off.
    have start := sound.head_position
    have after := sound.tail.start_le listed
    have ends := sound.uncrossed head List.mem_cons_self mark (List.mem_cons_of_mem _ listed)
      close closing last inner (by omega) (by omega)
    exact sound.tail.mem_take_iff.mpr ⟨found, by omega⟩
  uncrossed outer outer_mem inner inner_mem :=
    sound.tail.uncrossed outer (List.mem_of_mem_take outer_mem) inner
      (List.mem_of_mem_take inner_mem)
  once first first_mem second second_mem :=
    sound.tail.once first (List.mem_of_mem_take first_mem) second (List.mem_of_mem_take second_mem)
  position place mark here := by
    rw [List.getElem?_take] at here
    split at here
    · exact sound.tail.position place mark here
    · cases here
  quote mark member := sound.tail.quote mark (List.mem_of_mem_take member)

/-- A group that is read is what stands between two brackets of the view. -/
theorem IsSound.exists_of_group (sound : IsSound offset (head :: rest)) {contents after : List Mark}
    (read : lookahead.readToken head rest = some (.group contents, after)) :
    (∃ partner, rest = contents ++ partner :: after ∧ head.closing = some partner.position) ∧
      IsSound (offset + 1) contents := by
  obtain ⟨-, size, closing, inside, rfl, drop⟩ := lookahead.exists_of_readToken_group read
  obtain ⟨close, marked, rfl⟩ := Option.map_eq_some_iff.mp inside
  have contents := sound.contents marked
  rw [sound.head_position] at drop ⊢
  obtain ⟨front, partner, later, rfl, rfl, same⟩ := sound.exists_split marked
  rw [Nat.add_sub_cancel_left, List.drop_left] at drop
  cases drop
  refine ⟨⟨closing, ?_, by rw [same]; exact marked⟩, contents⟩
  rw [Nat.add_sub_cancel_left, List.take_left]

/-- Every group that the reader comes to is a sound view. -/
theorem IsSound.of_enters {contents : List Mark} (enters : lookahead.Enters view contents)
    (sound : IsSound offset view) : ∃ later, IsSound later contents := by
  induction enters generalizing offset with
  | blank _ _ induction => exact induction sound.tail
  | token _ read _ induction =>
      obtain ⟨later, after⟩ := sound.of_suffix (lookahead.suffix_of_readToken read)
      exact induction after
  | group _ read => exact ⟨_, (sound.exists_of_group read).2⟩
  | nested _ read _ induction => exact induction (sound.exists_of_group read).2

/-- A view that the reader comes to: all of some marks, or the contents of a group in them. -/
def IsReached (marks view : List Mark) : Prop := view = marks ∨ lookahead.Enters marks view

theorem exists_isSound {text : List Char} (reached : IsReached (ofText text) view) :
    ∃ offset, IsSound offset view := by
  rcases reached with rfl | enters
  · exact ⟨0, isSound_ofText text⟩
  · exact (isSound_ofText text).of_enters enters

/-- A token that is read anywhere in a view leaves less than there was, and a group is what stands
between two brackets of the view. -/
def ReadsOn (view : List Mark) : Prop :=
  ∀ head rest token after, head :: rest <:+ view →
    lookahead.readToken head rest = some (token, after) →
      after.length < (head :: rest).length ∧
        ∀ contents, token = .group contents → contents.length < view.length ∧
          ∃ partner, rest = contents ++ partner :: after ∧ head.closing = some partner.position

theorem IsSound.readsOn (sound : IsSound offset view) : ReadsOn view := by
  intro head rest token after suffix read
  refine ⟨Nat.lt_succ_of_le (lookahead.length_readToken_le read), ?_⟩
  rintro contents rfl
  obtain ⟨later, here⟩ := sound.of_suffix suffix
  obtain ⟨⟨partner, rfl, closing⟩, -⟩ := here.exists_of_group read
  refine ⟨?_, partner, rfl, closing⟩
  have within := suffix.length_le
  rw [List.length_cons, List.length_append] at within
  omega

end Views

end Mark

end Query
end TagStore
