import TagStore.Proofs.Json.Shape

/-!
# The shape of written values

Written with spaces or without, an array or object is its items between brackets.
-/

namespace TagStore
namespace Json

open Reader (IsSpace bracketed furtherItems memberText)

theorem toList_intercalate_cons (inner first : String) (rest : List String) :
    (("," ++ inner).intercalate (first :: rest)).toList =
      first.toList ++ furtherItems inner.toList (rest.map String.toList) := by
  induction rest generalizing first with
  | nil => simp [furtherItems]
  | cons next rest induction =>
      rw [String.intercalate_cons_cons, String.toList_append, String.toList_append, induction]
      simp [furtherItems]

theorem toList_compactItems (items : List Json) :
    (compactItems items).map String.toList = items.map fun item => item.compact.toList := by
  induction items with
  | nil => rfl
  | cons item rest induction => simp [compactItems, induction]

theorem toList_compactMembers (members : List (String × Json)) :
    (compactMembers members).map String.toList =
      members.map fun member => memberText [] member.1 member.2.compact.toList := by
  induction members with
  | nil => rfl
  | cons member rest induction => simp [compactMembers, induction, memberText]

theorem toList_joined (opening closing : Char) (lines : List String) :
    (String.singleton opening ++ ",".intercalate lines ++ String.singleton closing).toList =
      bracketed opening closing [] [] (lines.map String.toList) := by
  cases lines with
  | nil => simp [bracketed]
  | cons first rest =>
      have joined := toList_intercalate_cons "" first rest
      rw [String.append_empty] at joined
      simp [bracketed, joined]

/-- An array without spaces. -/
theorem toList_compact_array (items : List Json) :
    (compact (.array items)).toList =
      bracketed '[' ']' [] [] (items.map fun item => item.compact.toList) := by
  rw [← toList_compactItems]
  exact toList_joined '[' ']' (compactItems items)

/-- An object without spaces. -/
theorem toList_compact_object (members : List (String × Json)) :
    (compact (.object members)).toList = bracketed '\x7b' '\x7d' [] []
      (members.map fun member => memberText [] member.1 member.2.compact.toList) := by
  rw [← toList_compactMembers]
  exact toList_joined '\x7b' '\x7d' (compactMembers members)

/-! ## Indented values -/

theorem isSpace_pushn {text : String} (isSpace : IsSpace text.toList) (count : Nat) :
    IsSpace (text.pushn ' ' count).toList := by
  rw [String.pushn_eq_repeat_push]
  induction count with
  | zero => exact isSpace
  | succ count induction =>
      intro c member
      simp only [Nat.repeat, String.toList_push, List.mem_append, List.mem_singleton] at member
      rcases member with earlier | rfl
      · exact induction c earlier
      · decide

theorem isSpace_newline (level : Nat) : IsSpace (newline level).toList := by
  intro c member
  rw [newline, String.toList_append, List.mem_append] at member
  rcases member with first | later
  · rw [List.mem_singleton.mp first]
    decide
  · exact isSpace_pushn (by simp [IsSpace]) _ c later

theorem toList_prettyItems (level : Nat) (items : List Json) :
    (prettyItems level items).map String.toList =
      items.map fun item => (item.prettyAt level).toList := by
  induction items with
  | nil => rfl
  | cons item rest induction => simp [prettyItems, induction]

theorem toList_prettyMembers (level : Nat) (members : List (String × Json)) :
    (prettyMembers level members).map String.toList =
      members.map fun member => memberText [' '] member.1 (member.2.prettyAt level).toList := by
  induction members with
  | nil => rfl
  | cons member rest induction => simp [prettyMembers, induction, memberText]

theorem toList_block (opening closing : Char) (level : Nat) (lines : List String) :
    (block (String.singleton opening) (String.singleton closing) level lines).toList =
      bracketed opening closing (newline (level + 1)).toList (newline level).toList
        (lines.map String.toList) := by
  cases lines with
  | nil => simp [block, bracketed]
  | cons first rest =>
      simp only [block, String.toList_append, toList_intercalate_cons]
      simp [bracketed]

/-- An indented array. -/
theorem toList_prettyAt_array (level : Nat) (items : List Json) :
    (prettyAt level (.array items)).toList =
      bracketed '[' ']' (newline (level + 1)).toList (newline level).toList
        (items.map fun item => (item.prettyAt (level + 1)).toList) := by
  rw [← toList_prettyItems]
  exact toList_block '[' ']' level (prettyItems (level + 1) items)

/-- An indented object. -/
theorem toList_prettyAt_object (level : Nat) (members : List (String × Json)) :
    (prettyAt level (.object members)).toList =
      bracketed '\x7b' '\x7d' (newline (level + 1)).toList (newline level).toList
        (members.map fun member =>
          memberText [' '] member.1 (member.2.prettyAt (level + 1)).toList) := by
  rw [← toList_prettyMembers]
  exact toList_block '\x7b' '\x7d' level (prettyMembers (level + 1) members)

end Json
end TagStore
