import TagStore.Disk.Write
import TagStore.Proofs.Disk.Sound

/-!
# What a successful step does

Each step that succeeds on a path in the working directory has done one thing at the place that the
path says.  Making the directories above a path adds directories at free places on the way and
changes nothing else.
-/

namespace TagStore
namespace Disk

open Location (IsName)

variable {disk after : Disk} {path : String} {names : List String}

theorem bind_ok {ε α β : Type} {first : DiskStep ε α} {next : α → DiskStep ε β} {value : β}
    (done : (first >>= next) disk = .ok value after) :
    ∃ middle between, first disk = .ok middle between ∧ next middle between = .ok value after := by
  simp only [bind, EStateM.bind] at done
  split at done
  · exact ⟨_, _, ‹_›, done⟩
  · cases done

/-! ## Single steps -/

theorem makeDirectory_ok (sound : disk.IsSound) (leads : disk.Leads path names)
    (areNames : ∀ name ∈ names, IsName name)
    (done : makeDirectory path disk = .ok () after) :
    after = disk.put (disk.home ++ names) .directory ∧ disk.node? (disk.home ++ names) = none ∧
      disk.node? (disk.home ++ names.dropLast) = some .directory := by
  simp only [makeDirectory] at done
  split at done
  · cases done
  · cases done
  · rename_i place found
    obtain ⟨same, above⟩ := sound.spot_of_find leads areNames (.inl rfl) found
    obtain ⟨rfl, free⟩ := Spot.mk.inj same
    cases done
    exact ⟨rfl, free.symm, above⟩

theorem write_ok (sound : disk.IsSound) (leads : disk.Leads path names) (nonempty : names ≠ [])
    (areNames : ∀ name ∈ names, IsName name)
    (final : ∀ target, disk.node? (disk.home ++ names) ≠ some (.link target)) {content : ByteArray}
    (done : write path content disk = .ok () after) :
    after = disk.put (disk.home ++ names) (.file content) ∧
      disk.node? (disk.home ++ names) ≠ some .directory ∧
      disk.node? (disk.home ++ names.dropLast) = some .directory := by
  simp only [write, lookForFile, leads.names_eq nonempty areNames] at done
  split at done
  · cases done
  · cases done
  · rename_i place node other found
    obtain ⟨same, above⟩ := sound.spot_of_find leads areNames (.inr final) found
    obtain ⟨rfl, rfl⟩ := Spot.mk.inj same
    cases done
    exact ⟨rfl, other, above⟩

theorem remove_ok (sound : disk.IsSound) (leads : disk.Leads path names)
    (areNames : ∀ name ∈ names, IsName name) (done : remove path disk = .ok () after) :
    after = disk.drop (disk.home ++ names) ∧
      disk.node? (disk.home ++ names) ≠ some .directory := by
  simp only [remove] at done
  split at done
  · cases done
  · cases done
  · cases done
  · rename_i place node other found
    obtain ⟨same, -⟩ := sound.spot_of_find leads areNames (.inl rfl) found
    obtain ⟨rfl, there⟩ := Spot.mk.inj same
    split at done
    · cases done
    · cases done
      exact ⟨rfl, there ▸ fun directory => other (Option.some.inj directory)⟩

theorem remove_notFound (sound : disk.IsSound) (leads : disk.Leads path names)
    (nonempty : names ≠ []) (areNames : ∀ name ∈ names, IsName name)
    (failed : remove path disk = .error .notFound after) :
    after = disk ∧ disk.node? (disk.home ++ names) = none := by
  simp only [remove] at failed
  split at failed
  · rename_i error refused
    cases failed
    exact ⟨rfl, sound.free_of_notFound leads areNames nonempty refused⟩
  · rename_i place found
    obtain ⟨same, -⟩ := sound.spot_of_find leads areNames (.inl rfl) found
    obtain ⟨rfl, free⟩ := Spot.mk.inj same
    cases failed
    exact ⟨rfl, free.symm⟩
  · cases failed
  · rw [leads.endsInSlash nonempty areNames] at failed
    cases failed

theorem makeLink_ok (sound : disk.IsSound) (leads : disk.Leads path names)
    (areNames : ∀ name ∈ names, IsName name) {target : String}
    (done : makeLink target path disk = .ok () after) :
    after = disk.put (disk.home ++ names) (.link target) ∧
      disk.node? (disk.home ++ names) = none ∧
      disk.node? (disk.home ++ names.dropLast) = some .directory := by
  simp only [makeLink] at done
  split at done
  · cases done
  · cases done
  · cases done
  · rename_i place passes found
    obtain ⟨same, above⟩ := sound.spot_of_find leads areNames (.inl rfl) found
    obtain ⟨rfl, free⟩ := Spot.mk.inj same
    split at done
    · cases done
    · cases done
      exact ⟨rfl, free.symm, above⟩

/-! ## Directories -/

/-- A sound disk that differs from another one by directories at free places on the way to a
place. -/
structure Grows (before : Disk) (place : Place) (after : Disk) : Prop where
  sound : after.IsSound
  home : after.home = before.home
  nodes : ∀ other, after.node? other = before.node? other ∨
    other <+: place ∧ before.node? other = none ∧ after.node? other = some .directory

theorem Grows.refl (sound : disk.IsSound) (place : Place) : disk.Grows place disk :=
  ⟨sound, rfl, fun _ => .inl rfl⟩

theorem Grows.trans {between : Disk} {inner outer : Place} (first : disk.Grows inner between)
    (second : between.Grows outer after) (shorter : inner <+: outer) : disk.Grows outer after where
  sound := second.sound
  home := second.home.trans first.home
  nodes := by
    intro other
    rcases second.nodes other with same | ⟨way, free, made⟩
    · rcases first.nodes other with earlier | ⟨way, free, made⟩
      · exact .inl (same.trans earlier)
      · exact .inr ⟨way.trans shorter, free, same.trans made⟩
    · rcases first.nodes other with earlier | ⟨_, _, directory⟩
      · exact .inr ⟨way, earlier ▸ free, made⟩
      · rw [directory] at free
        cases free

theorem grows_put (sound : disk.IsSound) (nonempty : names ≠ [])
    (free : disk.node? (disk.home ++ names) = none)
    (above : disk.node? (disk.home ++ names.dropLast) = some .directory)
    (fits : Fits disk.home names .directory) :
    disk.Grows (disk.home ++ names) (disk.put (disk.home ++ names) .directory) where
  sound := sound.put nonempty above (by simp [free]) fits
  home := rfl
  nodes := by
    intro other
    rw [node?_put (place_ne_nil nonempty)]
    split
    · rename_i same
      subst same
      exact .inr ⟨List.prefix_refl _, free, rfl⟩
    · exact .inl rfl

theorem unlessDirectory_ok {error : DiskError}
    (done : unlessDirectory path error disk = .ok () after) : after = disk := by
  simp only [unlessDirectory] at done
  split at done <;> cases done
  rfl

theorem fits_dropLast {home : Place} (fits : Fits home names .directory) :
    Fits home names.dropLast .directory := by
  rcases fits with outside | rfl
  · left
    cases names with
    | nil => simp
    | cons first rest =>
        cases rest with
        | nil => simp
        | cons next rest => simpa using outside
  · exact .inl (by simp)

theorem Leads.of_home_eq {other : Disk} (leads : disk.Leads path names)
    (same : other.home = disk.home) : other.Leads path names := by
  have home : other.homePath = disk.homePath := by rw [homePath_eq, homePath_eq, same]
  cases leads with
  | here => exact .here
  | home => exact home ▸ .home
  | relative nonempty => exact .relative nonempty
  | absolute nonempty => exact same ▸ .absolute nonempty

theorem grows_of_makeDirectory (sound : disk.IsSound) (leads : disk.Leads path names)
    (areNames : ∀ name ∈ names, IsName name) (fits : Fits disk.home names .directory)
    (done : makeDirectory path disk = .ok () after) : disk.Grows (disk.home ++ names) after := by
  obtain ⟨rfl, free, above⟩ := makeDirectory_ok sound leads areNames done
  have nonempty : names ≠ [] := by
    rintro rfl
    rw [List.append_nil, sound.home_directory] at free
    cases free
  exact grows_put sound nonempty free above fits

theorem makeDirectory_error {error : DiskError}
    (failed : makeDirectory path disk = .error error after) : after = disk := by
  simp only [makeDirectory] at failed
  split at failed <;> cases failed <;> rfl

theorem makeDirectory_home (sound : disk.IsSound) (leads : disk.Leads path []) :
    makeDirectory path disk ≠ .error .notFound after := by
  intro failed
  have areNames : ∀ name ∈ ([] : List String), IsName name := fun _ none => nomatch none
  simp only [makeDirectory, lookAtEntry] at failed
  rcases leads.find sound.toIsRooted areNames .entry with walks | ⟨error, other, refused⟩
  · rw [walks] at failed
    cases failed
  · rw [refused] at failed
    cases failed
    exact other rfl

theorem makeDirectoryAfter_ok {above : DiskStep DiskError Unit} (leads : disk.Leads path names)
    (areNames : ∀ name ∈ names, IsName name) (fits : Fits disk.home names .directory)
    (first : ∀ between, above disk = .ok () between → disk.Grows (disk.home ++ names) between)
    (done : makeDirectoryAfter above path disk = .ok () after) :
    disk.Grows (disk.home ++ names) after := by
  simp only [makeDirectoryAfter] at done
  split at done
  · cases done
  · rename_i between made
    have first := first between made
    have leads := leads.of_home_eq first.home
    split at done
    · rename_i last
      cases done
      rw [← first.home] at fits
      have second := grows_of_makeDirectory first.sound leads areNames fits last
      rw [first.home] at second
      exact first.trans second (List.prefix_refl _)
    · rename_i failed
      rw [unlessDirectory_ok done, makeDirectory_error failed]
      exact first

/-- Making directories adds directories on the way and nothing else. -/
theorem makeDirectoriesWithin_ok (fuel : Nat) (sound : disk.IsSound)
    (leads : disk.Leads path names) (areNames : ∀ name ∈ names, IsName name)
    (fits : Fits disk.home names .directory)
    (done : makeDirectoriesWithin fuel path disk = .ok () after) :
    disk.Grows (disk.home ++ names) after := by
  induction fuel generalizing disk path names after with
  | zero =>
      simp only [makeDirectoriesWithin, if_neg leads.ne_empty] at done
      refine makeDirectoryAfter_ok leads areNames fits (fun between unchanged => ?_) done
      cases unchanged
      exact .refl sound _
  | succ fuel induction =>
      simp only [makeDirectoriesWithin, if_neg leads.ne_empty] at done
      split at done
      · rename_i made
        cases done
        exact grows_of_makeDirectory sound leads areNames fits made
      · rename_i failed
        rw [makeDirectory_error failed] at done failed
        by_cases none : names = []
        · subst none
          exact absurd failed (makeDirectory_home sound leads)
        obtain ⟨before, name, rfl⟩ : ∃ before name, names = before ++ [name] :=
          ⟨_, _, (List.dropLast_concat_getLast none).symm⟩
        obtain ⟨parent, found, above⟩ := leads.parent sound.toIsRooted areNames
        rw [found] at done
        refine makeDirectoryAfter_ok leads areNames fits (fun between made => ?_) done
        have aboveNames := (List.forall_mem_append.mp areNames).1
        have aboveFits := fits_dropLast fits
        rw [List.dropLast_concat] at aboveFits
        have first := induction sound above aboveNames aboveFits made
        have shorter : disk.home ++ before <+: disk.home ++ (before ++ [name]) :=
          (List.prefix_append_right_inj _).mpr (List.prefix_append _ _)
        exact first.trans (.refl first.sound _) shorter
      · rename_i failed
        rw [unlessDirectory_ok done, makeDirectory_error failed]
        exact .refl sound _

/-- Making the directories above a path adds directories on the way to its place. -/
theorem makeParents_ok (sound : disk.IsSound) {name : String}
    (leads : disk.Leads path (names ++ [name]))
    (areNames : ∀ other ∈ names ++ [name], IsName other) (fits : Fits disk.home names .directory)
    (done : makeParents path disk = .ok () after) : disk.Grows (disk.home ++ names) after := by
  obtain ⟨parent, found, above⟩ := leads.parent sound.toIsRooted areNames
  simp only [makeParents, found] at done
  have aboveNames := (List.forall_mem_append.mp areNames).1
  exact makeDirectoriesWithin_ok _ sound above aboveNames fits done

end Disk
end TagStore
