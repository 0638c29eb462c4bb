import TagStore.Proofs.Query.Marking
import TagStore.Query.Scanner

/-!
# Pairing brackets by a stack

A pass from the left that keeps the open brackets on a stack closes each of them where the marks
say, which are made from the right.  What the pass has still to do at a position is known from the
rest of the text: the brackets on the stack are closed by those that close nothing there.
-/

namespace TagStore
namespace Query

open Mark (marksFrom unmatchedFrom hiddenAfter quotes)

/-- Close open brackets one after the other. -/
def closeAll : (opened unmatched : List Nat) → List (Option Nat) → List (Option Nat)
  | [], _, closings => closings
  | _ :: _, [], closings => closings
  | start :: opened, close :: unmatched, closings =>
    closeAll opened unmatched (closings.set start (some close))

theorem closeAll_nil_right (opened : List Nat) (closings : List (Option Nat)) :
    closeAll opened [] closings = closings := by
  cases opened <;> rfl

theorem closeAll_append {opened : List Nat} {closings : List (Option Nat)}
    (inside : ∀ start ∈ opened, start < closings.length) (unmatched : List Nat)
    (later : List (Option Nat)) :
    closeAll opened unmatched (closings ++ later) =
      closeAll opened unmatched closings ++ later := by
  induction opened generalizing unmatched closings with
  | nil => rfl
  | cons start opened induction =>
      cases unmatched with
      | nil => rfl
      | cons close unmatched =>
          obtain ⟨first, others⟩ := List.forall_mem_cons.mp inside
          rw [closeAll, closeAll, List.set_append_left _ _ first]
          refine induction ?_ unmatched
          rwa [List.length_set]

/-- The last bracket on the stack is closed by the first one that closes nothing. -/
theorem closeAll_concat {opened : List Nat} {closings : List (Option Nat)} {position : Nat}
    (length : closings.length = position) (inside : ∀ start ∈ opened, start < closings.length)
    (unmatched : List Nat) :
    closeAll (position :: opened) unmatched (closings ++ [none]) =
      closeAll opened unmatched.tail closings ++ [unmatched.head?] := by
  subst length
  cases unmatched with
  | nil => rw [closeAll_nil_right, List.tail_nil, closeAll_nil_right, List.head?_nil]
  | cons close unmatched =>
      rw [closeAll, List.set_append_right _ _ (Nat.le_refl _), Nat.sub_self,
        closeAll_append inside]
      rfl

/-! ## The next position -/

theorem drop_quotes (start size : Nat) (text : List Char) :
    (quotes start text).drop size = quotes (start + size) (text.drop size) := by
  induction size generalizing start text with
  | zero => rfl
  | succ size induction =>
      cases text with
      | nil => rfl
      | cons c rest =>
          rw [quotes, List.drop_succ_cons, List.drop_succ_cons, induction,
            show start + 1 + size = start + (size + 1) by omega]

theorem join_getElem?_quotes (text : List Char) (position : Nat) :
    (quotes 0 text)[position]?.join =
      (Search.quote (text.drop position)).map (position + ·) := by
  rw [← List.head?_drop, drop_quotes, Mark.head_quotes, Nat.zero_add]

theorem afterColon_iff {front later : List Char} :
    0 < front.length ∧ (front ++ later)[front.length - 1]? = some ':' ↔
      (front.getLast? == some ':') = true := by
  rcases List.eq_nil_or_concat front with rfl | ⟨others, last, rfl⟩
  · simp
  · simp

/-- The pass goes on behind the characters that are hidden in the marks. -/
theorem positionAfter_eq (front : List Char) (c : Char) (rest : List Char) :
    positionAfter (front ++ c :: rest) (quotes 0 (front ++ c :: rest)) front.length =
      front.length + 1 + hiddenAfter (front.getLast? == some ':') c rest := by
  have here : (front ++ c :: rest)[front.length]? = some c := by simp
  have behind : (front ++ c :: rest).drop (front.length + 2) = rest.drop 1 := by simp
  simp only [positionAfter, here, Option.some.injEq, join_getElem?_quotes, behind, afterColon_iff]
  rw [hiddenAfter, Search.skipped]
  by_cases opens : c = '"' ∧ (front.getLast? == some ':') = true
  · rw [if_pos opens, if_pos (by simpa using opens)]
    cases Search.quote (rest.drop 1) with
    | none => rfl
    | some size =>
        simp only [Option.map_some, Option.getD_some, Option.elim_some]
        omega
  · rw [if_neg opens, if_neg (by simpa using opens)]
    rfl

/-! ## The pass -/

theorem pairFrom_end {text : List Char} {position : Nat} (ends : text.length ≤ position)
    (pairing : Pairing) :
    pairFrom text (quotes 0 text) position pairing = .ok pairing.closings := by
  rw [pairFrom, dif_neg (Nat.not_lt.mpr ends)]

theorem pairFrom_take {front rest : List Char} {c : Char} {before after : Pairing}
    (taken : before.take c front.length = .ok after) :
    pairFrom (front ++ c :: rest) (quotes 0 (front ++ c :: rest)) front.length before =
      pairFrom (front ++ c :: rest) (quotes 0 (front ++ c :: rest))
        (front.length + 1 + hiddenAfter (front.getLast? == some ':') c rest) after := by
  have inside : front.length < (front ++ c :: rest).length := by simp
  have here : (front ++ c :: rest)[front.length] = c := by simp
  rw [pairFrom, dif_pos inside, here, taken, positionAfter_eq]
  exact dif_pos (by omega)

/-- A pass that goes on behind the first characters of a text completes what it has found in front
of it by what the marks say of the text. -/
def Completes (front text : List Char) (hidden : Nat) : Prop :=
  ∀ (opened : List Nat) (closings : List (Option Nat)), closings.length = front.length →
    (∀ start ∈ opened, start < closings.length) →
      pairFrom (front ++ text) (quotes 0 (front ++ text)) (front.length + hidden)
          ⟨opened, closings ++ List.replicate text.length none⟩ =
        .ok (closeAll opened
            (unmatchedFrom front.length (front.getLast? == some ':') hidden text) closings ++
          (marksFrom front.length (front.getLast? == some ':') hidden text).map Mark.closing)

theorem completes_nil (front : List Char) (hidden : Nat) : Completes front [] hidden := by
  intro opened closings _ _
  rw [pairFrom_end (by simp)]
  change Except.ok (closings ++ []) = Except.ok (closeAll opened [] closings ++ [])
  rw [closeAll_nil_right]

section Cons

variable {front rest : List Char} {c : Char} {hidden : Nat} {opened : List Nat}
  {closings : List (Option Nat)}

/-- A character has been taken, and the entry of its position is still empty. -/
theorem Completes.behind (later : Completes (front ++ [c]) rest hidden)
    (length : closings.length = front.length)
    (inside : ∀ start ∈ opened, start ≤ closings.length) :
    pairFrom (front ++ c :: rest) (quotes 0 (front ++ c :: rest)) (front.length + 1 + hidden)
        ⟨opened, closings ++ List.replicate (c :: rest).length none⟩ =
      .ok (closeAll opened (unmatchedFrom (front.length + 1) (c == ':') hidden rest)
          (closings ++ [none]) ++
        (marksFrom (front.length + 1) (c == ':') hidden rest).map Mark.closing) := by
  have next : (front ++ [c]).length = front.length + 1 := List.length_append
  have longer : (closings ++ [none]).length = closings.length + 1 := List.length_append
  have within : ∀ start ∈ opened, start < (closings ++ [none]).length := by
    intro start member
    rw [longer]
    exact Nat.lt_succ_of_le (inside start member)
  have found := later opened _ (by rw [longer, next, length]) within
  rwa [next, List.getLast?_concat, List.append_assoc, List.append_assoc, List.singleton_append,
    List.singleton_append, ← List.replicate_succ] at found

/-- The first of the characters to be passed over is passed over. -/
theorem Completes.cons_hidden (later : Completes (front ++ [c]) rest hidden) :
    Completes front (c :: rest) (hidden + 1) := by
  intro opened closings length inside
  have found := later.behind length fun start member => Nat.le_of_lt (inside start member)
  rw [closeAll_append inside, List.append_assoc, List.singleton_append] at found
  rw [Mark.marksFrom_hidden, Mark.unmatchedFrom_hidden, ← Nat.add_assoc, Nat.add_right_comm]
  exact found

theorem Pairing.take_other (pairing : Pairing) (position : Nat) (not_opening : c ≠ '[')
    (not_closing : c ≠ ']') : pairing.take c position = .ok pairing := by
  rw [take, if_neg not_opening, if_neg not_closing]

theorem Pairing.take_closing {start position : Nat} (inside : start < closings.length)
    (later : List (Option Nat)) :
    Pairing.take ⟨start :: opened, closings ++ later⟩ ']' position =
      .ok ⟨opened, closings.set start (some position) ++ later⟩ := by
  rw [take, if_neg (by decide), if_pos rfl, ← List.set_append_left _ _ inside]
  refine if_pos ?_
  rw [List.length_append]
  omega

/-- A character that is not passed over is taken, and the pass goes on behind it. -/
theorem Completes.cons_shown
    (later : Completes (front ++ [c]) rest (hiddenAfter (front.getLast? == some ':') c rest)) :
    Completes front (c :: rest) 0 := by
  intro opened closings length inside
  have at_most : ∀ start ∈ opened, start ≤ closings.length :=
    fun start member => Nat.le_of_lt (inside start member)
  rw [Mark.marksFrom_shown, Mark.unmatchedFrom_shown, List.map_cons, Nat.add_zero]
  by_cases isClosing : c = ']'
  · subst isClosing
    rw [if_pos rfl, if_neg (by decide)]
    cases opened with
    | nil =>
        rw [pairFrom_take rfl, later.behind length at_most, closeAll, List.append_assoc]
        rfl
    | cons start opened =>
        obtain ⟨first, others⟩ := List.forall_mem_cons.mp inside
        have others :
            ∀ other ∈ opened, other < (closings.set start (some front.length)).length := by
          rwa [List.length_set]
        rw [pairFrom_take (Pairing.take_closing first _),
          later.behind (List.length_set.trans length) fun other member =>
            Nat.le_of_lt (others other member),
          closeAll_append others, List.append_assoc]
        rfl
  · rw [if_neg isClosing]
    by_cases isOpening : c = '['
    · subst isOpening
      rw [if_pos rfl, if_pos rfl, pairFrom_take rfl,
        later.behind length (List.forall_mem_cons.mpr ⟨Nat.le_of_eq length.symm, at_most⟩),
        closeAll_concat length inside, List.append_assoc]
      rfl
    · rw [if_neg isOpening, if_neg isOpening,
        pairFrom_take (Pairing.take_other _ _ isOpening isClosing), later.behind length at_most,
        closeAll_append inside, List.append_assoc]
      rfl

end Cons

theorem completes (front text : List Char) (hidden : Nat) : Completes front text hidden := by
  induction text generalizing front hidden with
  | nil => exact completes_nil front hidden
  | cons c rest induction =>
      cases hidden with
      | zero => exact (induction _ _).cons_shown
      | succ hidden => exact (induction _ _).cons_hidden

/-- The brackets of a text are paired by the stack as they are in the marks. -/
theorem closingBrackets_eq (text : List Char) :
    closingBrackets text (quotes 0 text) = .ok ((Mark.ofText text).map Mark.closing) :=
  completes [] text 0 [] [] rfl nofun

theorem assemble_nil (start : Nat) (text : List Char) (quotes : List (Option Nat)) :
    Mark.assemble start text quotes [] = [] := by
  cases text <;> cases quotes <;> rfl

/-- The marks are put together of what is known of each character. -/
theorem assemble_closings (start : Nat) (text : List Char) (quotes closings : List (Option Nat)) :
    Mark.assemble start text quotes
        ((Mark.assemble start text quotes closings).map Mark.closing) =
      Mark.assemble start text quotes closings := by
  fun_induction Mark.assemble start text quotes closings with
  | case1 start c text quote quotes closing closings induction =>
      rw [List.map_cons, Mark.assemble, induction]
  | case2 => exact assemble_nil _ _ _

end Query
end TagStore
