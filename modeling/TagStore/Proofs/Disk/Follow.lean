import TagStore.Proofs.Disk.Location

/-!
# Paths followed part by part

An idle part of a path stays where it is, `..` leads back, and any other part leads on.  How deep a
path leads is the number of parts that lead on less those that lead back.  A path is inside if it is
relative and leads below the directory where it begins without leaving this directory on its way.
-/

namespace TagStore

namespace Location

/-- Whether a part of a path leads on to an entry of the directory at hand. -/
def leadsOn (part : String) : Bool := !isIdle part && part ≠ ".."

/-- Where a part of a path leads, if that is not out of the directory where it all began.  A place
is given by the names on the way to it, the last one first. -/
def follow (here : List String) (part : String) : Option (List String) :=
  if isIdle part then some here
  else if part = ".." then here.tail?
  else some (part :: here)

/-- Where the parts of a path lead. -/
def followAll (here parts : List String) : Option (List String) := parts.foldlM follow here

section Follow

variable {here there outer names parts : List String} {part : String}

theorem followAll_append (here first second : List String) :
    followAll here (first ++ second) = (followAll here first).bind (followAll · second) :=
  List.foldlM_append

theorem followAll_cons (here : List String) (part : String) (rest : List String) :
    followAll here (part :: rest) = (follow here part).bind (followAll · rest) :=
  List.foldlM_cons

theorem active_up : isIdle ".." = false := by decide

theorem ne_up_of_isIdle (idle : isIdle part) : part ≠ ".." := by
  rintro rfl
  exact absurd idle (by decide)

/-- A part stays, leads back or leads on. -/
theorem follow_eq_some_iff :
    follow here part = some there ↔ (isIdle part ∧ there = here) ∨
      (part = ".." ∧ ∃ name, here = name :: there) ∨ (leadsOn part ∧ there = part :: here) := by
  rw [follow, leadsOn]
  by_cases idle : isIdle part
  · simp [idle, ne_up_of_isIdle idle, eq_comm (a := there)]
  · by_cases up : part = ".."
    · subst up
      cases here with
      | nil => simp [active_up]
      | cons name rest => simp [active_up, eq_comm (a := there)]
    · simp [idle, up, eq_comm (a := there)]

/-- A part that leads on goes one deeper, and `..` comes back from there. -/
theorem length_follow (found : follow here part = some there) :
    there.length + [part].count ".." = here.length + [part].countP leadsOn := by
  rcases follow_eq_some_iff.mp found with ⟨idle, rfl⟩ | ⟨rfl, name, rfl⟩ | ⟨on, rfl⟩
  · simp [leadsOn, idle, ne_up_of_isIdle idle]
  · rfl
  · have other : part ≠ ".." := by
      rintro rfl
      exact absurd on (by decide)
    simp [on, other]

theorem length_followAll (found : followAll here parts = some there) :
    there.length + parts.count ".." = here.length + parts.countP leadsOn := by
  induction parts generalizing here with
  | nil =>
      cases found
      rfl
  | cons part rest induction =>
      rw [followAll_cons, Option.bind_eq_some_iff] at found
      obtain ⟨between, first, later⟩ := found
      have step := length_follow first
      have further := induction later
      rw [← List.singleton_append, List.count_append, List.countP_append]
      omega

/-- What stays below a directory does so wherever the directory is. -/
theorem follow_above (found : follow here part = some there) (outer : List String) :
    follow (here ++ outer) part = some (there ++ outer) := by
  rw [follow_eq_some_iff] at found ⊢
  rcases found with ⟨idle, rfl⟩ | ⟨up, name, rfl⟩ | ⟨on, rfl⟩
  · exact .inl ⟨idle, rfl⟩
  · exact .inr (.inl ⟨up, name, rfl⟩)
  · exact .inr (.inr ⟨on, rfl⟩)

theorem followAll_above (found : followAll here parts = some there) (outer : List String) :
    followAll (here ++ outer) parts = some (there ++ outer) := by
  induction parts generalizing here with
  | nil =>
      cases found
      rfl
  | cons part rest induction =>
      rw [followAll_cons, Option.bind_eq_some_iff] at found ⊢
      obtain ⟨between, first, later⟩ := found
      exact ⟨between ++ outer, follow_above first outer, induction later⟩

/-- A part can be followed unless it is `..` at the very start. -/
theorem exists_follow (possible : part = ".." → here ≠ []) :
    ∃ there, follow here part = some there := by
  by_cases idle : isIdle part
  · exact ⟨here, follow_eq_some_iff.mpr (.inl ⟨idle, rfl⟩)⟩
  · by_cases up : part = ".."
    · obtain ⟨name, rest, rfl⟩ := List.exists_cons_of_ne_nil (possible up)
      exact ⟨rest, follow_eq_some_iff.mpr (.inr (.inl ⟨up, name, rfl⟩))⟩
    · exact ⟨part :: here, follow_eq_some_iff.mpr (.inr (.inr ⟨by simp [leadsOn, idle, up], rfl⟩))⟩

/-- Parts among which there is no `..` lead somewhere. -/
theorem exists_followAll (never : ".." ∉ parts) (here : List String) :
    ∃ there, followAll here parts = some there := by
  induction parts generalizing here with
  | nil => exact ⟨here, rfl⟩
  | cons part rest induction =>
      rw [List.mem_cons, not_or] at never
      obtain ⟨between, first⟩ := exists_follow fun up => absurd up.symm never.1
      obtain ⟨there, later⟩ := induction never.2 between
      exact ⟨there, by rw [followAll_cons, first]; exact later⟩

/-- One part more can be followed if enough parts lead on. -/
theorem exists_followAll_concat (found : followAll here parts = some there)
    (enough : (parts ++ [part]).count ".." ≤ here.length + (parts ++ [part]).countP leadsOn) :
    ∃ last, followAll here (parts ++ [part]) = some last := by
  have depth := length_followAll found
  obtain ⟨last, step⟩ : ∃ last, follow there part = some last := by
    refine exists_follow ?_
    rintro rfl rfl
    have up : [".."].count ".." = 1 ∧ [".."].countP leadsOn = 0 := by decide
    rw [List.count_append, List.countP_append, up.1, up.2] at enough
    rw [List.length_nil] at depth
    omega
  refine ⟨last, ?_⟩
  rw [followAll_append, found, Option.bind_some, followAll_cons, step]
  rfl

end Follow

/-- A path to an entry below the directory that it is seen from, on which it is never left. -/
structure IsInside (path : String) : Prop where
  /-- It does not start at the root. -/
  relative : isAbsolute path = false
  /-- It leads somewhere, and not back to the start. -/
  below : ∃ names, names ≠ [] ∧ followAll [] (parts path) = some names

/-- A relative path is followed from where the directory is. -/
theorem followAll_join {path : String} (relative : isAbsolute path = false) (here : List String)
    (directory : String) :
    followAll here (parts (join directory path)) =
      (followAll here (parts directory)).bind (followAll · (parts path)) := by
  rw [join, relative, Bool.false_or]
  split
  · rename_i empty
    rw [of_decide_eq_true empty]
    rfl
  · split
    · rename_i slash
      rw [endsInSlash, decide_eq_true_eq, List.getLast?_eq_some_iff] at slash
      obtain ⟨before, split⟩ := slash
      have whole : directory = String.ofList before ++ "/" ++ "" := by
        rw [← String.toList_inj, split]
        simp
      have again : directory ++ path = String.ofList before ++ "/" ++ path := by
        rw [whole, String.append_empty]
      have stays (here : List String) : followAll here (parts "") = some here := rfl
      rw [again, parts_slash, whole, parts_slash, followAll_append, followAll_append]
      simp only [stays, Option.bind_fun_some]
    · rw [parts_slash, followAll_append]

/-- Seen from any directory, a path that stays inside leads to an entry below this directory. -/
theorem IsInside.join {path : String} (inside : IsInside path) {directory : String}
    {here there : List String} (found : followAll here (parts directory) = some there) :
    ∃ names, names ≠ [] ∧ followAll here (parts (join directory path)) = some (names ++ there) := by
  obtain ⟨names, nonempty, below⟩ := inside.below
  refine ⟨names, nonempty, ?_⟩
  rw [followAll_join inside.relative, found]
  exact followAll_above below there

end Location
end TagStore
