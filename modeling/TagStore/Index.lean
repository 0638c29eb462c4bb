/-!
# Ordered indexes

A finite map that lists its entries by strictly increasing key.  The order is part of the type, so
two indexes with the same entries are equal and every traversal of an index is sorted.
-/

namespace TagStore

/-- Entries with strictly increasing keys. -/
def Increasing {κ β : Type} [Ord κ] (entries : List (κ × β)) : Prop :=
  entries.Pairwise fun before after => compare before.1 after.1 = .lt

/-- A finite map listed by increasing key. -/
structure Index (κ β : Type) [Ord κ] where
  /-- The entries, in key order. -/
  entries : List (κ × β) := []
  /-- No key is repeated or out of order. -/
  increasing : Increasing entries := by exact List.Pairwise.nil

namespace Index

variable {κ β : Type} [Ord κ]

theorem ext_entries {first second : Index κ β} (same : first.entries = second.entries) :
    first = second := by
  cases first
  cases second
  cases same
  rfl

instance [DecidableEq κ] [DecidableEq β] : DecidableEq (Index κ β) := fun first second =>
  decidable_of_iff (first.entries = second.entries) ⟨ext_entries, fun same => same ▸ rfl⟩

instance : Inhabited (Index κ β) := ⟨{}⟩

instance : EmptyCollection (Index κ β) := ⟨{}⟩

/-- The keys, in order. -/
def keys (index : Index κ β) : List κ := index.entries.map (·.1)

/-- The number of entries. -/
def size (index : Index κ β) : Nat := index.entries.length

/-- The value under a key, if there is one. -/
def get? (index : Index κ β) (key : κ) : Option β :=
  (index.entries.find? fun entry => compare entry.1 key == .eq).map (·.2)

/-- Whether a key has a value. -/
def contains (index : Index κ β) (key : κ) : Bool :=
  (index.get? key).isSome

/-- The entries that pass a test. -/
def filter (test : κ → β → Bool) (index : Index κ β) : Index κ β where
  entries := index.entries.filter fun entry => test entry.1 entry.2
  increasing := index.increasing.filter _

/-- The index without a key. -/
def erase (index : Index κ β) (key : κ) : Index κ β :=
  index.filter fun other _ => compare other key != .eq

/-- The same keys with values computed from each entry. -/
def map {γ : Type} (change : κ → β → γ) (index : Index κ β) : Index κ γ where
  entries := index.entries.map fun entry => (entry.1, change entry.1 entry.2)
  increasing := by simpa only [Increasing, List.pairwise_map] using index.increasing

/-- Put an entry where its key belongs, in place of an equal key. -/
def place (key : κ) (value : β) : List (κ × β) → List (κ × β)
  | [] => [(key, value)]
  | head :: rest =>
    match compare key head.1 with
    | .lt => (key, value) :: head :: rest
    | .eq => (key, value) :: rest
    | .gt => head :: place key value rest

theorem mem_place {key : κ} {value : β} {entries : List (κ × β)} {entry : κ × β}
    (member : entry ∈ place key value entries) : entry = (key, value) ∨ entry ∈ entries := by
  induction entries with
  | nil => exact .inl (by simpa [place] using member)
  | cons head rest ih =>
    rw [place] at member
    split at member
    · simpa using member
    · rcases List.mem_cons.mp member with here | later
      · exact .inl here
      · exact .inr (List.mem_cons_of_mem _ later)
    · rcases List.mem_cons.mp member with here | later
      · exact .inr (here ▸ List.mem_cons_self)
      · exact (ih later).imp_right (List.mem_cons_of_mem _)

variable [Std.TransOrd κ] [Std.LawfulEqOrd κ]

theorem increasing_place (key : κ) (value : β) {entries : List (κ × β)}
    (increasing : Increasing entries) : Increasing (place key value entries) := by
  induction entries with
  | nil => exact List.pairwise_singleton _ _
  | cons head rest ih =>
    obtain ⟨above, tail⟩ := List.pairwise_cons.mp increasing
    rw [place]
    split
    · rename_i below
      refine List.pairwise_cons.mpr ⟨fun entry member => ?_, increasing⟩
      rcases List.mem_cons.mp member with here | later
      · exact here ▸ below
      · exact Std.TransCmp.lt_trans below (above entry later)
    · rename_i same
      have same : key = head.1 := Std.LawfulEqCmp.eq_of_compare same
      exact List.pairwise_cons.mpr ⟨fun entry member => same ▸ above entry member, tail⟩
    · rename_i beyond
      refine List.pairwise_cons.mpr ⟨fun entry member => ?_, ih tail⟩
      rcases mem_place member with here | later
      · exact here ▸ Std.OrientedCmp.lt_of_gt beyond
      · exact above entry later

/-- The index with a key set to a value. -/
def insert (index : Index κ β) (key : κ) (value : β) : Index κ β where
  entries := place key value index.entries
  increasing := increasing_place key value index.increasing

/-- The index of a list of entries; of equal keys the last one counts. -/
def ofList (entries : List (κ × β)) : Index κ β :=
  entries.foldl (fun index entry => index.insert entry.1 entry.2) ∅

end Index

end TagStore
