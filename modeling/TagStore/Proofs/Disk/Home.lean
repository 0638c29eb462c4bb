import TagStore.Proofs.Disk.Walk

/-!
# Paths that lead on from the working directory

The same names can be written from the working directory or from the root.  Either way a path is
followed from the working directory along these names, as long as nothing in it is too long.
-/

namespace TagStore
namespace Disk

open Location (IsName SlashFree ofParts fromRoot)

/-- A disk where everything stands in a directory, the working directory among the rest. -/
structure IsRooted (disk : Disk) : Prop where
  tree : disk.IsTree
  home_names : ∀ name ∈ disk.home, IsName name
  home_directory : disk.node? disk.home = some .directory

instance (disk : Disk) : Decidable disk.IsRooted :=
  decidable_of_iff (disk.IsTree ∧ (∀ name ∈ disk.home, IsName name) ∧
      disk.node? disk.home = some .directory)
    ⟨fun ⟨tree, names, directory⟩ => ⟨tree, names, directory⟩,
      fun rooted => ⟨rooted.tree, rooted.home_names, rooted.home_directory⟩⟩

section Changes

variable {disk : Disk} {place : Place} {name : String}

theorem IsRooted.put (rooted : disk.IsRooted)
    (other : disk.node? (place ++ [name]) ≠ some .directory)
    (above : disk.node? place = some .directory) (node : Node) :
    (disk.put (place ++ [name]) node).IsRooted := by
  have kept {here : Place} (there : disk.node? here = some .directory) :
      (disk.put (place ++ [name]) node).node? here = some .directory := by
    rw [node?_put (by simp), if_neg, there]
    rintro rfl
    exact other there
  refine ⟨?_, rooted.home_names, kept rooted.home_directory⟩
  intro here last found there
  rcases disk.node?_put_cases (place ++ [name]) node (here ++ [last]) with same | ⟨same, -⟩
  · exact kept (rooted.tree _ _ _ (same ▸ there))
  · rw [(List.append_inj' same rfl).1]
    exact kept above

theorem IsRooted.drop (rooted : disk.IsRooted) (other : disk.node? place ≠ some .directory) :
    (disk.drop place).IsRooted := by
  have inside : place ≠ [] := by
    rintro rfl
    exact other rfl
  have kept {here : Place} (there : disk.node? here = some .directory) :
      (disk.drop place).node? here = some .directory := by
    rw [node?_drop inside, if_neg, there]
    rintro rfl
    exact other there
  refine ⟨?_, rooted.home_names, kept rooted.home_directory⟩
  intro above name found there
  rw [node?_drop inside] at there
  split at there
  · cases there
  · exact kept (rooted.tree _ _ _ there)

end Changes

/-- A path leads along names from the working directory of a disk. -/
inductive Leads (disk : Disk) : String → List String → Prop
  /-- The working directory itself. -/
  | here : Leads disk "." []
  /-- The working directory, from the root. -/
  | home : Leads disk disk.homePath []
  /-- Names in the working directory. -/
  | relative {names : List String} : names ≠ [] → Leads disk (ofParts ("." :: names)) names
  /-- Names in the working directory, from the root. -/
  | absolute {names : List String} : names ≠ [] →
      Leads disk (fromRoot (disk.home ++ "." :: names)) names

theorem homePath_eq (disk : Disk) : disk.homePath = fromRoot disk.home := rfl

variable {disk : Disk} {path : String} {names : List String}

theorem Leads.ne_empty (leads : disk.Leads path names) : path ≠ "" := by
  have starts (text : String) : "/" ++ text ≠ "" := by simp [← String.toList_inj]
  cases leads with
  | here => decide
  | home => exact starts _
  | relative nonempty =>
      obtain ⟨first, rest, rfl⟩ := List.exists_cons_of_ne_nil nonempty
      rw [Location.ofParts_cons_cons]
      simp [← String.toList_inj]
  | absolute => exact starts _

theorem slashFree_home (rooted : disk.IsRooted) (areNames : ∀ name ∈ names, IsName name) :
    SlashFree (disk.home ++ "." :: names) :=
  .append (Location.slashFree_of_isName rooted.home_names)
    (Location.slashFree_dot (Location.slashFree_of_isName areNames))

theorem isAbsolute_fromRoot (parts : List String) :
    Location.isAbsolute (fromRoot parts) = true := by
  simp [Location.isAbsolute, fromRoot]

theorem namesOfEntry_fromRoot {parts : List String} (nonempty : parts ≠ [])
    (free : SlashFree parts) :
    Location.namesOfEntry (fromRoot parts) = parts.filter (· ≠ "") := by
  rw [← Location.ofParts_empty_cons nonempty,
    Location.namesOfEntry_ofParts (List.cons_ne_nil _ _) (Location.slashFree_empty free)]
  rfl

theorem namesOfEntry_absolute (rooted : disk.IsRooted) (areNames : ∀ name ∈ names, IsName name) :
    Location.namesOfEntry (fromRoot (disk.home ++ "." :: names)) = disk.home ++ "." :: names := by
  rw [namesOfEntry_fromRoot (by simp) (slashFree_home rooted areNames), List.filter_append,
    Location.filter_ne_empty_of_isName rooted.home_names, List.filter_cons_of_pos (by decide),
    Location.filter_ne_empty_of_isName areNames]

theorem namesOfEntry_relative (areNames : ∀ name ∈ names, IsName name) :
    Location.namesOfEntry (ofParts ("." :: names)) = "." :: names := by
  rw [Location.namesOfEntry_ofParts (List.cons_ne_nil _ _)
    (Location.slashFree_dot (Location.slashFree_of_isName areNames)),
    List.filter_cons_of_pos (by decide), Location.filter_ne_empty_of_isName areNames]

theorem namesOfEntry_homePath (rooted : disk.IsRooted) :
    Location.namesOfEntry disk.homePath = disk.home := by
  rw [homePath_eq]
  by_cases root : disk.home = []
  · rw [root]
    decide
  · rw [namesOfEntry_fromRoot root (Location.slashFree_of_isName rooted.home_names),
      Location.filter_ne_empty_of_isName rooted.home_names]

theorem checkPath_eq {path : String} (nonempty : path ≠ "") :
    checkPath path = .ok () ∨ ∃ error, error ≠ .notFound ∧ checkPath path = .error error := by
  rw [checkPath, if_neg nonempty]
  split
  · exact .inr ⟨_, by decide, rfl⟩
  · split
    · exact .inr ⟨_, by decide, rfl⟩
    · exact .inl rfl

theorem IsRooted.walkNames_home (rooted : disk.IsRooted) {aim : Aim}
    {onward : List String → Place → Except DiskError Spot} {rest : List String}
    (further : rest ≠ [""]) :
    disk.walkNames aim onward (disk.home ++ rest) [] = disk.walkNames aim onward rest disk.home ∨
      disk.walkNames aim onward (disk.home ++ rest) [] = .error .nameTooLong :=
  @walkNames_through disk aim onward [] disk.home rooted.tree rooted.home_names
    rooted.home_directory rest further

/-- A path that leads on is refused or followed from the working directory. -/
theorem Leads.find (leads : disk.Leads path names) (rooted : disk.IsRooted)
    (areNames : ∀ name ∈ names, IsName name) (aim : Aim) :
    disk.find aim path (Location.namesOfEntry path) = disk.walk aim linkLimit names disk.home ∨
      ∃ error, error ≠ .notFound ∧
        disk.find aim path (Location.namesOfEntry path) = .error error := by
  have limit : disk.walk aim linkLimit = disk.walkNames aim (disk.walk aim 39) := rfl
  rcases checkPath_eq leads.ne_empty with passes | ⟨error, other, refused⟩
  · rw [Disk.find, passes, limit]
    cases leads with
    | here => exact .inl rfl
    | home =>
        rw [namesOfEntry_homePath rooted, homePath_eq, isAbsolute_fromRoot]
        have through : disk.walkNames aim (disk.walk aim 39) (disk.home ++ []) [] = _ ∨ _ :=
          rooted.walkNames_home (by simp)
        rw [List.append_nil] at through
        exact through.imp_right fun long => ⟨_, by decide, long⟩
    | relative nonempty =>
        rw [namesOfEntry_relative areNames,
          Location.isAbsolute_ofParts_cons (by decide) (by decide)]
        exact .inl (walkNames_idle (by decide) _ _)
    | absolute nonempty =>
        rw [namesOfEntry_absolute rooted areNames, isAbsolute_fromRoot]
        have through :
            disk.walkNames aim (disk.walk aim 39) (disk.home ++ "." :: names) [] = _ ∨ _ :=
          rooted.walkNames_home (by simp)
        rw [walkNames_idle (by decide)] at through
        exact through.imp_right fun long => ⟨_, by decide, long⟩
  · refine .inr ⟨error, other, ?_⟩
    rw [Disk.find, refused]

/-! ## Parents and ends -/

theorem Leads.endsInSlash (leads : disk.Leads path names) (nonempty : names ≠ [])
    (areNames : ∀ name ∈ names, IsName name) : Location.endsInSlash path = false := by
  have split := List.dropLast_concat_getLast nonempty
  have isName := areNames _ (List.getLast_mem nonempty)
  cases leads with
  | here => exact absurd rfl nonempty
  | home => exact absurd rfl nonempty
  | relative =>
      rw [← split, ← List.cons_append]
      exact Location.endsInSlash_ofParts isName.ne_empty isName.slash_free _
  | absolute =>
      rw [← Location.ofParts_empty_cons (by simp), ← split]
      rw [← List.cons_append, ← List.cons_append, ← List.append_assoc]
      exact Location.endsInSlash_ofParts isName.ne_empty isName.slash_free _

/-- The parent of a path that leads on leads along all names but the last. -/
theorem Leads.parent {name : String} (leads : disk.Leads path (names ++ [name]))
    (rooted : disk.IsRooted) (areNames : ∀ other ∈ names ++ [name], IsName other) :
    ∃ parent, Location.parent? path = some parent ∧ disk.Leads parent names := by
  obtain ⟨before, last⟩ := List.forall_mem_append.mp areNames
  have isName := last name (List.mem_singleton.mpr rfl)
  generalize split : names ++ [name] = all at leads
  cases leads with
  | here => simp at split
  | home => simp at split
  | relative =>
      subst split
      refine ⟨_, Location.parent?_relative isName before, ?_⟩
      by_cases none : names = []
      · subst none
        exact .here
      · exact .relative none
  | absolute =>
      subst split
      rw [← List.cons_append, ← List.append_assoc,
        Location.parent?_fromRoot isName (slashFree_home rooted before)]
      refine ⟨_, rfl, ?_⟩
      by_cases none : names = []
      · subst none
        have kept :
            ((disk.home ++ ["."]).reverse.dropWhile Location.isIdle).reverse = disk.home := by
          rw [List.reverse_append, List.reverse_singleton, List.singleton_append,
            List.dropWhile_cons, if_pos (by decide),
            Location.dropWhile_isIdle_reverse rooted.home_names, List.reverse_reverse]
        rw [kept]
        exact .home
      · have kept : ((disk.home ++ "." :: names).reverse.dropWhile Location.isIdle).reverse =
            disk.home ++ "." :: names := by
          have split := List.dropLast_concat_getLast none
          have isName := before _ (List.getLast_mem none)
          rw [← split, ← List.cons_append, ← List.append_assoc,
            Location.dropWhile_isIdle_concat isName, List.reverse_cons, List.reverse_reverse]
        rw [kept]
        exact .absolute none

/-! ## Joined paths -/

theorem endsInSlash_fromRoot {last : String} (nonempty : last ≠ "") (free : '/' ∉ last.toList)
    (parts : List String) : Location.endsInSlash (fromRoot (parts ++ [last])) = false := by
  rw [← Location.ofParts_empty_cons (by simp), ← List.cons_append]
  exact Location.endsInSlash_ofParts nonempty free _

theorem fromRoot_append {first second : List String} (left : first ≠ []) (right : second ≠ []) :
    fromRoot (first ++ second) = fromRoot first ++ "/" ++ ofParts second := by
  rw [fromRoot, Location.ofParts_append left right, fromRoot, String.append_assoc,
    String.append_assoc, String.append_assoc]

theorem absolute_dot (rooted : disk.IsRooted) :
    disk.absolute "." = fromRoot (disk.home ++ ["."]) := by
  have relative : Location.isAbsolute "." = false := by decide
  have nonempty : disk.homePath ≠ "" := Leads.home.ne_empty
  simp only [absolute, relative, Location.join, Bool.false_or, decide_eq_true_eq, if_neg nonempty,
    Bool.false_eq_true, if_false]
  by_cases root : disk.home = []
  · rw [homePath_eq, root]
    decide
  · have split := List.dropLast_concat_getLast root
    have isName := rooted.home_names _ (List.getLast_mem root)
    have ends := endsInSlash_fromRoot isName.ne_empty isName.slash_free disk.home.dropLast
    rw [split, ← homePath_eq] at ends
    rw [ends, if_neg (by decide), fromRoot_append root (List.cons_ne_nil _ _),
      Location.ofParts_singleton, homePath_eq]

theorem join_ofParts {directory : String} (written : directory ≠ "")
    (ends : Location.endsInSlash directory = false) (nonempty : names ≠ [])
    (areNames : ∀ name ∈ names, IsName name) :
    Location.join directory (ofParts names) = directory ++ "/" ++ ofParts names := by
  obtain ⟨first, rest, rfl⟩ := List.exists_cons_of_ne_nil nonempty
  have isName := areNames first List.mem_cons_self
  rw [Location.join, Location.isAbsolute_ofParts_cons isName.ne_empty isName.slash_free, ends]
  simp [written]

/-- A path in the output directory, from the working directory. -/
theorem leads_join_dot (nonempty : names ≠ []) (areNames : ∀ name ∈ names, IsName name) :
    disk.Leads (Location.join "." (ofParts names)) names := by
  rw [join_ofParts (by decide) (by decide) nonempty areNames]
  have whole : ofParts ("." :: names) = "." ++ "/" ++ ofParts names := by
    obtain ⟨first, rest, rfl⟩ := List.exists_cons_of_ne_nil nonempty
    exact Location.ofParts_cons_cons _ _ _
  rw [← whole]
  exact .relative nonempty

theorem join_absolute (rooted : disk.IsRooted) (nonempty : names ≠ [])
    (areNames : ∀ name ∈ names, IsName name) :
    Location.join (disk.absolute ".") (ofParts names) = fromRoot (disk.home ++ "." :: names) := by
  have written : disk.absolute "." ≠ "" := by
    rw [absolute_dot rooted]
    simp [fromRoot, ← String.toList_inj]
  have ends : Location.endsInSlash (disk.absolute ".") = false := by
    rw [absolute_dot rooted]
    exact endsInSlash_fromRoot (by decide) (by decide) _
  rw [join_ofParts written ends nonempty areNames, absolute_dot rooted,
    ← fromRoot_append (by simp) nonempty, List.append_assoc, List.singleton_append]

/-- A path in the output directory, from the root. -/
theorem leads_join_absolute (rooted : disk.IsRooted) (nonempty : names ≠ [])
    (areNames : ∀ name ∈ names, IsName name) :
    disk.Leads (Location.join (disk.absolute ".") (ofParts names)) names := by
  rw [join_absolute rooted nonempty areNames]
  exact .absolute nonempty

end Disk
end TagStore
