import TagStore.Query.Search

/-!
# Where groups close

The search for the bracket that closes a group walks over a text and skips every quoted value.  It
depends on nothing after the bracket it finds, and cutting the text off there changes no search
that starts further inside.
-/

namespace TagStore
namespace Query
namespace Search

/-- The number of characters between the first two of a quoted value and its closing quote, where a
value opens at a character and goes on in the text after it. -/
def skipped (afterColon : Bool) (c : Char) (rest : List Char) : Option Nat :=
  if c = '"' && afterColon then quote (rest.drop 1) else none

theorem skipped_false (c : Char) (rest : List Char) : skipped false c rest = none := by
  simp [skipped]

theorem skipped_of_ne {afterColon : Bool} {c : Char} {rest : List Char} (other : c ≠ '"') :
    skipped afterColon c rest = none := by
  simp [skipped, other]

theorem skipped_eq_some_iff {afterColon : Bool} {c : Char} {rest : List Char} {size : Nat} :
    skipped afterColon c rest = some size ↔
      c = '"' ∧ afterColon = true ∧ quote (rest.drop 1) = some size := by
  rw [skipped]
  split <;> simp_all

theorem inside_closing_zero (afterColon : Bool) (rest : List Char) :
    inside 0 afterColon (']' :: rest) = some 0 := by
  rw [inside.eq_def]
  simp

theorem inside_closing_succ (depth : Nat) (afterColon : Bool) (rest : List Char) :
    inside (depth + 1) afterColon (']' :: rest) = (inside depth false rest).map (· + 1) := by
  rw [inside.eq_def]
  simp

theorem inside_opening (depth : Nat) (afterColon : Bool) (rest : List Char) :
    inside depth afterColon ('[' :: rest) = (inside (depth + 1) false rest).map (· + 1) := by
  rw [inside.eq_def]
  simp

theorem inside_skip (depth : Nat) {afterColon : Bool} {c : Char} {rest : List Char} {size : Nat}
    (skip : skipped afterColon c rest = some size) :
    inside depth afterColon (c :: rest) =
      (inside depth false (rest.drop (size + 2))).map (· + (size + 3)) := by
  have isQuote := (skipped_eq_some_iff.mp skip).1
  have not_closing : c ≠ ']' := by simp [isQuote]
  have not_opening : c ≠ '[' := by simp [isQuote]
  rw [skipped] at skip
  rw [inside.eq_def]
  simp only [not_closing, not_opening, if_false]
  rw [skip]

theorem inside_step (depth : Nat) {afterColon : Bool} {c : Char} {rest : List Char}
    (not_closing : c ≠ ']') (not_opening : c ≠ '[') (step : skipped afterColon c rest = none) :
    inside depth afterColon (c :: rest) = (inside depth (c == ':') rest).map (· + 1) := by
  rw [skipped] at step
  rw [inside.eq_def]
  simp only [not_closing, not_opening, if_false]
  rw [step]

/-- A character that a search for a bracket passes over wherever it stands. -/
def IsPlain (c : Char) : Prop := c ≠ ']' ∧ c ≠ '[' ∧ c ≠ '"' ∧ c ≠ ':'

theorem inside_plain (depth : Nat) (afterColon : Bool) {c : Char} (plain : IsPlain c)
    (rest : List Char) :
    inside depth afterColon (c :: rest) = (inside depth false rest).map (· + 1) := by
  obtain ⟨not_closing, not_opening, not_quote, not_colon⟩ := plain
  rw [inside_step depth not_closing not_opening (skipped_of_ne not_quote),
    beq_false_of_ne not_colon]

theorem quote_append {text : List Char} (unquoted : '"' ∉ text) (rest : List Char) :
    quote (text ++ '"' :: rest) = some text.length := by
  have absent : text.findIdx? (· == '"') = none := by
    rw [List.findIdx?_eq_none_iff]
    intro c member
    exact beq_false_of_ne fun isQuote => unquoted (isQuote ▸ member)
  rw [quote, List.findIdx?_append, absent]
  simp [List.findIdx?_cons]

theorem quote_take (text : List Char) (length : Nat) :
    quote (text.take length) = (quote text).filter (· < length) := by
  rw [quote, quote, List.findIdx?_take]
  cases text.findIdx? (· == '"') with
  | none => rfl
  | some size => simp [Option.guard_eq_filter]

theorem skipped_take {afterColon : Bool} {c : Char} {rest : List Char} {size length : Nat}
    (skip : skipped afterColon c rest = some size) (within : size + 1 < length) :
    skipped afterColon c (rest.take length) = some size := by
  obtain ⟨isQuote, opens, closes⟩ := skipped_eq_some_iff.mp skip
  refine skipped_eq_some_iff.mpr ⟨isQuote, opens, ?_⟩
  rw [List.drop_take, quote_take, closes, Option.filter_some_pos]
  simp only [decide_eq_true_eq]
  omega

theorem skipped_take_of_none {afterColon : Bool} {c : Char} {rest : List Char} (length : Nat)
    (step : skipped afterColon c rest = none) : skipped afterColon c (rest.take length) = none := by
  rw [skipped] at step ⊢
  split
  · rename_i opens
    rw [if_pos opens] at step
    rw [List.drop_take, quote_take, step]
    rfl
  · rfl

/-- A search ends right before a closing bracket. -/
theorem drop_of_inside {depth : Nat} {afterColon : Bool} {text : List Char} {size : Nat}
    (found : inside depth afterColon text = some size) :
    text.drop size = ']' :: text.drop (size + 1) := by
  fun_induction inside depth afterColon text generalizing size with
  | case1 => cases found
  | case2 =>
      cases found
      rfl
  | case3 _ rest depth induction =>
      obtain ⟨later, inner, rfl⟩ := Option.map_eq_some_iff.mp found
      exact induction inner
  | case4 depth _ rest _ induction =>
      obtain ⟨later, inner, rfl⟩ := Option.map_eq_some_iff.mp found
      exact induction inner
  | case5 depth _ c rest _ _ skip _ induction =>
      obtain ⟨later, inner, rfl⟩ := Option.map_eq_some_iff.mp found
      have here := induction inner
      rw [List.drop_drop, List.drop_drop] at here
      rw [show later + (skip + 3) = (skip + 2 + later) + 1 by omega,
        show skip + 2 + later + 1 + 1 = (skip + 2 + (later + 1)) + 1 by omega]
      exact here
  | case6 depth _ c rest _ _ _ induction =>
      obtain ⟨later, inner, rfl⟩ := Option.map_eq_some_iff.mp found
      exact induction inner

/-- A search that starts inside of a group is the same in the contents of the group alone. -/
theorem inside_take {depth outer : Nat} {afterColon : Bool} {text : List Char} {size : Nat}
    (found : inside (depth + outer + 1) afterColon text = some size) :
    inside depth afterColon (text.take size) = inside depth afterColon text := by
  generalize whole : depth + outer + 1 = total at found
  fun_induction inside total afterColon text generalizing depth size with
  | case1 => cases found
  | case2 => omega
  | case3 _ rest total induction =>
      obtain ⟨later, inner, rfl⟩ := Option.map_eq_some_iff.mp found
      cases depth with
      | zero => simp [inside_closing_zero]
      | succ depth =>
          rw [List.take_succ_cons, inside_closing_succ, inside_closing_succ]
          rw [induction (by omega) inner]
  | case4 total _ rest _ induction =>
      obtain ⟨later, inner, rfl⟩ := Option.map_eq_some_iff.mp found
      rw [List.take_succ_cons, inside_opening, inside_opening]
      rw [induction (by omega) inner]
  | case5 total _ c rest _ _ size skip induction =>
      obtain ⟨later, inner, rfl⟩ := Option.map_eq_some_iff.mp found
      rw [show later + (size + 3) = (later + (size + 2)) + 1 by omega, List.take_succ_cons,
        inside_skip depth skip, inside_skip depth (skipped_take skip (by omega))]
      rw [List.drop_take, show later + (size + 2) - (size + 2) = later by omega]
      rw [induction (by omega) inner]
  | case6 total _ c rest not_closing not_opening step induction =>
      obtain ⟨later, inner, rfl⟩ := Option.map_eq_some_iff.mp found
      rw [List.take_succ_cons, inside_step depth not_closing not_opening step,
        inside_step depth not_closing not_opening (skipped_take_of_none _ step)]
      rw [induction (by omega) inner]

/-! ## Passing over a text -/

/-- A search for a bracket goes over a text and comes out as it went in. -/
def Passes (afterColon : Bool) (text : List Char) : Prop :=
  ∀ depth rest, inside depth afterColon (text ++ rest) =
    (inside depth false rest).map (· + text.length)

theorem Passes.nil : Passes false [] := by
  intro depth rest
  simp

theorem Passes.append {afterColon : Bool} {text later : List Char} (first : Passes afterColon text)
    (second : Passes false later) : Passes afterColon (text ++ later) := by
  intro depth rest
  rw [List.append_assoc, first, second, Option.map_map, List.length_append]
  congr 1
  funext size
  simp only [Function.comp_apply]
  omega

theorem Passes.cons {afterColon : Bool} {c : Char} {text : List Char} (plain : IsPlain c)
    (passes : Passes false text) : Passes afterColon (c :: text) := by
  intro depth rest
  rw [List.cons_append, inside_plain depth afterColon plain, passes, Option.map_map]
  rfl

theorem Passes.of_plain {afterColon : Bool} {text : List Char} (nonempty : text ≠ [])
    (plain : ∀ c ∈ text, IsPlain c) : Passes afterColon text := by
  induction text generalizing afterColon with
  | nil => exact absurd rfl nonempty
  | cons c tail induction =>
      obtain ⟨here, later⟩ := List.forall_mem_cons.mp plain
      refine .cons here ?_
      cases tail with
      | nil => exact .nil
      | cons d tail => exact induction (List.cons_ne_nil _ _) later

theorem Passes.colon {text : List Char} (passes : Passes true text) :
    Passes false (':' :: text) := by
  intro depth rest
  have step : inside depth false (':' :: (text ++ rest)) =
      (inside depth true (text ++ rest)).map (· + 1) :=
    inside_step depth (by decide) (by decide) (skipped_false _ _)
  rw [List.cons_append, step, passes, Option.map_map]
  rfl

theorem Passes.quoted (first : Char) {text : List Char} (unquoted : '"' ∉ text) :
    Passes true ('"' :: first :: (text ++ ['"'])) := by
  intro depth rest
  have skip : skipped true '"' (first :: (text ++ '"' :: rest)) = some text.length :=
    skipped_eq_some_iff.mpr ⟨rfl, rfl, quote_append unquoted rest⟩
  have behind : (first :: (text ++ '"' :: rest)).drop (text.length + 2) = rest := by
    rw [List.drop_succ_cons, ← List.drop_drop, List.drop_left]
    rfl
  have whole : '"' :: first :: (text ++ ['"']) ++ rest = '"' :: first :: (text ++ '"' :: rest) := by
    simp
  rw [whole, inside_skip depth skip, behind]
  simp

theorem Passes.group {afterColon : Bool} {text : List Char} (passes : Passes false text) :
    Passes afterColon ('[' :: (text ++ [']'])) := by
  intro depth rest
  have whole : '[' :: (text ++ [']']) ++ rest = '[' :: (text ++ ']' :: rest) := by simp
  rw [whole, inside_opening, passes, inside_closing_succ, Option.map_map, Option.map_map]
  congr 1
  funext size
  simp only [Function.comp_apply, List.length_cons, List.length_append, List.length_nil]
  omega

end Search
end Query
end TagStore
