import TagStore.Index

/-!
# Laws of ordered indexes

An index has at most one entry with a key, so looking up a key and finding its entry are the same.
Every way of making an index is described by what it answers to a key.
-/

namespace TagStore
namespace Index

variable {κ β γ : Type} [Ord κ]

variable [Std.LawfulEqOrd κ]

theorem ne_of_compare_eq_lt {first second : κ} (below : compare first second = .lt) :
    first ≠ second := by
  rintro rfl
  rw [Std.ReflOrd.compare_self] at below
  cases below

/-- An entry is found under its key. -/
theorem get?_eq_some_iff {index : Index κ β} {key : κ} {value : β} :
    index.get? key = some value ↔ (key, value) ∈ index.entries := by
  rcases index with ⟨entries, increasing⟩
  simp only [get?]
  induction entries with
  | nil => simp
  | cons head rest induction =>
      rcases head with ⟨first, content⟩
      obtain ⟨above, tail⟩ := List.pairwise_cons.mp increasing
      rw [List.find?_cons]
      by_cases same : first = key
      · subst same
        have absent : (first, value) ∉ rest := fun later =>
          ne_of_compare_eq_lt (above _ later) rfl
        simp [absent, eq_comm]
      · have different : (compare first key == .eq) = false := by
          simpa using fun equal => same (Std.LawfulEqOrd.eq_of_compare equal)
        simp only [different]
        rw [induction tail, List.mem_cons]
        simp [Ne.symm same]

theorem mem_keys_iff {index : Index κ β} {key : κ} :
    key ∈ index.keys ↔ ∃ value, index.get? key = some value := by
  simp [keys, get?_eq_some_iff]

theorem nodup_keys (index : Index κ β) : index.keys.Nodup :=
  List.pairwise_map.mpr (index.increasing.imp ne_of_compare_eq_lt)

/-! ## Selecting and changing values -/

@[simp]
theorem get?_filter (test : κ → β → Bool) (index : Index κ β) (key : κ) :
    (index.filter test).get? key = (index.get? key).filter (test key) := by
  apply Option.ext
  intro value
  rw [get?_eq_some_iff, Option.filter_eq_some_iff, get?_eq_some_iff]
  exact List.mem_filter

@[simp]
theorem get?_erase [DecidableEq κ] (index : Index κ β) (key other : κ) :
    (index.erase key).get? other = if other = key then none else index.get? other := by
  rw [erase, get?_filter]
  by_cases same : other = key
  · subst same
    simp
  · have kept : (compare other key != .eq) = true := by
      simpa using fun equal => same (Std.LawfulEqOrd.eq_of_compare equal)
    rw [if_neg same]
    cases index.get? other with
    | none => rfl
    | some value => exact Option.filter_some_pos kept

@[simp]
theorem get?_map (change : κ → β → γ) (index : Index κ β) (key : κ) :
    (index.map change).get? key = (index.get? key).map (change key) := by
  apply Option.ext
  intro value
  rw [get?_eq_some_iff, Option.map_eq_some_iff]
  simp only [get?_eq_some_iff, map, List.mem_map, Prod.mk.injEq]
  constructor
  · rintro ⟨entry, member, rfl, rfl⟩
    exact ⟨entry.2, member, rfl⟩
  · rintro ⟨content, member, rfl⟩
    exact ⟨(key, content), member, rfl, rfl⟩

omit [Std.LawfulEqOrd κ] in
@[simp]
theorem keys_map (change : κ → β → γ) (index : Index κ β) :
    (index.map change).keys = index.keys := by
  rw [keys, keys, map, List.map_map]
  rfl

/-! ## Setting values -/

omit [Std.LawfulEqOrd κ] in
theorem mem_place_self (key : κ) (value : β) (entries : List (κ × β)) :
    (key, value) ∈ place key value entries := by
  induction entries with
  | nil => simp [place]
  | cons head rest induction =>
      rw [place]
      split
      · exact List.mem_cons_self
      · exact List.mem_cons_self
      · exact List.mem_cons_of_mem _ induction

theorem mem_place_of_ne {key : κ} {value : β} {entries : List (κ × β)} {entry : κ × β}
    (member : entry ∈ entries) (other : entry.1 ≠ key) : entry ∈ place key value entries := by
  induction entries with
  | nil => cases member
  | cons head rest induction =>
      rw [place]
      split
      · exact List.mem_cons_of_mem _ member
      · rename_i same
        rcases List.mem_cons.mp member with rfl | later
        · exact absurd (Std.LawfulEqOrd.eq_of_compare same).symm other
        · exact List.mem_cons_of_mem _ later
      · rcases List.mem_cons.mp member with rfl | later
        · exact List.mem_cons_self
        · exact List.mem_cons_of_mem _ (induction later)

variable [Std.TransOrd κ]

/-- Setting a key changes the answer to this key alone. -/
@[simp]
theorem get?_insert [DecidableEq κ] (index : Index κ β) (key other : κ) (value : β) :
    (index.insert key value).get? other = if other = key then some value else index.get? other := by
  split
  · rename_i same
    subst same
    exact get?_eq_some_iff.mpr (mem_place_self _ _ _)
  · rename_i different
    apply Option.ext
    intro content
    rw [get?_eq_some_iff, get?_eq_some_iff]
    constructor
    · intro member
      rcases mem_place member with same | earlier
      · exact absurd (congrArg Prod.fst same) different
      · exact earlier
    · intro member
      exact mem_place_of_ne member different

theorem place_of_mem {key : κ} {value : β} {entries : List (κ × β)}
    (increasing : Increasing entries) (member : (key, value) ∈ entries) :
    place key value entries = entries := by
  induction entries with
  | nil => cases member
  | cons head rest induction =>
      obtain ⟨above, tail⟩ := List.pairwise_cons.mp increasing
      rcases List.mem_cons.mp member with rfl | later
      · simp [place, Std.ReflOrd.compare_self]
      · have beyond := Std.OrientedCmp.gt_of_lt (above _ later)
        rw [place, beyond, induction tail later]

/-- Setting a key to the value that it has changes nothing. -/
theorem insert_of_get? {index : Index κ β} {key : κ} {value : β}
    (found : index.get? key = some value) : index.insert key value = index :=
  ext_entries (place_of_mem index.increasing (get?_eq_some_iff.mp found))

/-! ## Listing -/

omit [Std.LawfulEqOrd κ] [Std.TransOrd κ] in
theorem place_append {key : κ} {value : β} {entries : List (κ × β)}
    (above : ∀ entry ∈ entries, compare key entry.1 = .gt) :
    place key value entries = entries ++ [(key, value)] := by
  induction entries with
  | nil => rfl
  | cons head rest induction =>
      obtain ⟨first, later⟩ := List.forall_mem_cons.mp above
      rw [place, first, List.cons_append, induction later]

theorem entries_foldl_insert {index : Index κ β} {entries : List (κ × β)}
    (increasing : Increasing (index.entries ++ entries)) :
    (entries.foldl (fun index entry => index.insert entry.1 entry.2) index).entries =
      index.entries ++ entries := by
  induction entries generalizing index with
  | nil => simp
  | cons head rest induction =>
      have above : ∀ entry ∈ index.entries, compare head.1 entry.1 = .gt := by
        intro entry member
        exact Std.OrientedCmp.gt_of_lt
          ((List.pairwise_append.mp increasing).2.2 entry member head List.mem_cons_self)
      have placed : (index.insert head.1 head.2).entries = index.entries ++ [head] :=
        place_append above
      rw [List.foldl_cons, induction, placed, List.append_assoc, List.singleton_append]
      rw [placed, List.append_assoc, List.singleton_append]
      exact increasing

/-- An index is the index of its entries. -/
@[simp]
theorem ofList_entries (index : Index κ β) : ofList index.entries = index :=
  ext_entries (@entries_foldl_insert _ _ _ _ _ ∅ _ index.increasing)

end Index
end TagStore
