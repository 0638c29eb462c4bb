import TagStore.Disk.Basic
import TagStore.Proofs.Text.Chars

/-!
# Paths put together from names

A path that is put together from parts is cut into these parts again, and its parent is put together
from all of them but the last name.
-/

namespace TagStore
namespace Location

/-- The path with certain parts. -/
def ofParts (parts : List String) : String := "/".intercalate parts

/-- A text that names an entry of a directory. -/
structure IsName (name : String) : Prop where
  ne_empty : name ≠ ""
  ne_dot : name ≠ "."
  ne_up : name ≠ ".."
  slash_free : '/' ∉ name.toList

theorem isName_iff {name : String} :
    IsName name ↔ name ≠ "" ∧ name ≠ "." ∧ name ≠ ".." ∧ '/' ∉ name.toList := by
  constructor
  · intro ⟨empty, dot, up, slash⟩
    exact ⟨empty, dot, up, slash⟩
  · intro ⟨empty, dot, up, slash⟩
    exact ⟨empty, dot, up, slash⟩

instance (name : String) : Decidable (IsName name) := decidable_of_iff' _ isName_iff

theorem IsName.not_isIdle {name : String} (isName : IsName name) : isIdle name = false := by
  simp [isIdle, isName.ne_empty, isName.ne_dot]

/-- Nothing in a list of parts is cut further. -/
def SlashFree (parts : List String) : Prop := ∀ part ∈ parts, '/' ∉ part.toList

theorem slashFree_of_isName {names : List String} (areNames : ∀ name ∈ names, IsName name) :
    SlashFree names := fun name member => (areNames name member).slash_free

theorem slashFree_nil : SlashFree [] := fun _ none => nomatch none

theorem SlashFree.cons {part : String} {parts : List String} (first : '/' ∉ part.toList)
    (later : SlashFree parts) : SlashFree (part :: parts) :=
  List.forall_mem_cons.mpr ⟨first, later⟩

theorem SlashFree.append {first second : List String} (left : SlashFree first)
    (right : SlashFree second) : SlashFree (first ++ second) :=
  List.forall_mem_append.mpr ⟨left, right⟩

theorem slashFree_empty {parts : List String} (later : SlashFree parts) :
    SlashFree ("" :: parts) := .cons (by decide) later

theorem slashFree_dot {parts : List String} (later : SlashFree parts) :
    SlashFree ("." :: parts) := .cons (by decide) later

/-! ## Taking paths apart -/

theorem parts_ofParts {parts : List String} (nonempty : parts ≠ []) (free : SlashFree parts) :
    Location.parts (ofParts parts) = parts :=
  Text.pieces_intercalate '/' nonempty free

theorem ofParts_cons_cons (first second : String) (rest : List String) :
    ofParts (first :: second :: rest) = first ++ "/" ++ ofParts (second :: rest) :=
  String.intercalate_cons_cons

theorem ofParts_append {first second : List String} (left : first ≠ []) (right : second ≠ []) :
    ofParts (first ++ second) = ofParts first ++ "/" ++ ofParts second :=
  String.intercalate_append_of_ne_nil left right

theorem ofParts_singleton (part : String) : ofParts [part] = part := String.intercalate_singleton

theorem isAbsolute_ofParts_empty {parts : List String} (nonempty : parts ≠ []) :
    isAbsolute (ofParts ("" :: parts)) = true := by
  obtain ⟨next, rest, rfl⟩ := List.exists_cons_of_ne_nil nonempty
  rw [ofParts_cons_cons]
  simp [isAbsolute]

theorem isAbsolute_ofParts_cons {part : String} (nonempty : part ≠ "") (free : '/' ∉ part.toList)
    (parts : List String) : isAbsolute (ofParts (part :: parts)) = false := by
  have starts : ∃ rest, ofParts (part :: parts) = part ++ rest := by
    cases parts with
    | nil => exact ⟨"", by simp [ofParts]⟩
    | cons next rest => exact ⟨_, by rw [ofParts_cons_cons, String.append_assoc]⟩
  obtain ⟨rest, starts⟩ := starts
  obtain ⟨c, tail, split⟩ := List.exists_cons_of_ne_nil (l := part.toList) (by simpa using nonempty)
  rw [split] at free
  simp only [List.mem_cons, not_or] at free
  simp [isAbsolute, starts, split, Ne.symm free.1]

theorem endsInSlash_ofParts {last : String} (nonempty : last ≠ "") (free : '/' ∉ last.toList)
    (parts : List String) : endsInSlash (ofParts (parts ++ [last])) = false := by
  have ends : ∃ rest, ofParts (parts ++ [last]) = rest ++ last := by
    by_cases none : parts = []
    · exact ⟨"", by rw [none, List.nil_append, ofParts_singleton, String.empty_append]⟩
    · exact ⟨_, by rw [ofParts_append none (List.cons_ne_nil _ _), ofParts_singleton]⟩
  obtain ⟨rest, ends⟩ := ends
  have nonempty : last.toList ≠ [] := by simpa using nonempty
  rw [endsInSlash, ends, String.toList_append, List.getLast?_append,
    List.getLast?_eq_some_getLast nonempty, Option.some_or, decide_eq_false_iff_not]
  intro slash
  rw [Option.some.injEq] at slash
  exact free (slash ▸ List.getLast_mem nonempty)

/-! ## Names -/

theorem namesOfEntry_ofParts {parts : List String} (nonempty : parts ≠ [])
    (free : SlashFree parts) : namesOfEntry (ofParts parts) = parts.filter (· ≠ "") := by
  rw [namesOfEntry, parts_ofParts nonempty free]

theorem filter_ne_empty_of_isName {names : List String} (areNames : ∀ name ∈ names, IsName name) :
    names.filter (· ≠ "") = names := by
  rw [List.filter_eq_self]
  intro name member
  simpa using (areNames name member).ne_empty

theorem names_eq_namesOfEntry {path : String} (ends : endsInSlash path = false) :
    names path = namesOfEntry path := by
  simp [names, ends]

/-- A path that is put together from names. -/
structure IsEntry (path : String) : Prop where
  nonempty : namesOfEntry path ≠ []
  areNames : ∀ name ∈ namesOfEntry path, IsName name
  eq_ofParts : path = ofParts (namesOfEntry path)

theorem namesOfEntry_of_isName {names : List String} (nonempty : names ≠ [])
    (areNames : ∀ name ∈ names, IsName name) : namesOfEntry (ofParts names) = names := by
  rw [namesOfEntry_ofParts nonempty (slashFree_of_isName areNames),
    filter_ne_empty_of_isName areNames]

theorem isEntry_ofParts {names : List String} (nonempty : names ≠ [])
    (areNames : ∀ name ∈ names, IsName name) : IsEntry (ofParts names) := by
  have same := namesOfEntry_of_isName nonempty areNames
  constructor
  · rwa [same]
  · rwa [same]
  · rw [same]

/-! ## Parents -/

/-- The path from the root along some parts. -/
def fromRoot (parts : List String) : String := "/" ++ ofParts parts

theorem ofParts_empty_cons {parts : List String} (nonempty : parts ≠ []) :
    ofParts ("" :: parts) = fromRoot parts := by
  obtain ⟨first, rest, rfl⟩ := List.exists_cons_of_ne_nil nonempty
  rw [ofParts_cons_cons, String.empty_append]
  rfl

theorem parent?_of_relative {path : String} {inner rest : List String} {last : String}
    (relative : isAbsolute path = false) (cut : Location.parts path = "." :: inner)
    (ends : inner.reverse.dropWhile isIdle = last :: rest) :
    parent? path = some (ofParts ("." :: (rest.dropWhile isIdle).reverse)) := by
  simp only [parent?, relative, cut, List.head?_cons, Bool.not_false, decide_true, Bool.and_self,
    Bool.or_true, if_true, List.drop_succ_cons, List.drop_zero, ends]
  cases (rest.dropWhile isIdle).reverse with
  | nil => rfl
  | cons first others =>
      rw [ofParts_cons_cons]
      rfl

theorem parent?_of_absolute {path : String} {inner rest : List String} {last : String}
    (absolute : isAbsolute path = true) (cut : Location.parts path = "" :: inner)
    (ends : inner.reverse.dropWhile isIdle = last :: rest) :
    parent? path = some (fromRoot (rest.dropWhile isIdle).reverse) := by
  simp only [parent?, absolute, cut, Bool.not_true, Bool.false_and, Bool.true_or, if_true,
    List.drop_succ_cons, List.drop_zero, ends]
  cases (rest.dropWhile isIdle).reverse with
  | nil => rfl
  | cons first others => rfl

theorem dropWhile_isIdle_reverse {names : List String} (areNames : ∀ name ∈ names, IsName name) :
    names.reverse.dropWhile isIdle = names.reverse := by
  cases split : names.reverse with
  | nil => rfl
  | cons last rest =>
      have isName := areNames last (List.mem_reverse.mp (split ▸ List.mem_cons_self))
      rw [List.dropWhile_cons, isName.not_isIdle]
      rfl

theorem dropWhile_isIdle_concat {name : String} (isName : IsName name) (parts : List String) :
    (parts ++ [name]).reverse.dropWhile isIdle = name :: parts.reverse := by
  rw [List.reverse_append, List.reverse_singleton, List.singleton_append, List.dropWhile_cons,
    isName.not_isIdle]
  rfl

/-- The parent of a path from the working directory. -/
theorem parent?_relative {names : List String} {name : String} (isName : IsName name)
    (areNames : ∀ name ∈ names, IsName name) :
    parent? (ofParts ("." :: (names ++ [name]))) = some (ofParts ("." :: names)) := by
  have free : SlashFree ("." :: (names ++ [name])) :=
    slashFree_dot (.append (slashFree_of_isName areNames) (.cons isName.slash_free slashFree_nil))
  rw [parent?_of_relative (isAbsolute_ofParts_cons (by decide) (by decide) _)
    (parts_ofParts (List.cons_ne_nil _ _) free) (dropWhile_isIdle_concat isName names),
    dropWhile_isIdle_reverse areNames, List.reverse_reverse]

/-- The parent of a path from the root. -/
theorem parent?_fromRoot {parts : List String} {name : String} (isName : IsName name)
    (free : SlashFree parts) :
    parent? (fromRoot (parts ++ [name])) =
      some (fromRoot (parts.reverse.dropWhile isIdle).reverse) := by
  have nonempty : parts ++ [name] ≠ [] := by simp
  have whole : SlashFree ("" :: (parts ++ [name])) :=
    slashFree_empty (.append free (.cons isName.slash_free slashFree_nil))
  rw [← ofParts_empty_cons nonempty]
  exact parent?_of_absolute (isAbsolute_ofParts_empty nonempty)
    (parts_ofParts (List.cons_ne_nil _ _) whole) (dropWhile_isIdle_concat isName parts)

/-! ## Parents of any paths -/

theorem slashFree_parts (path : String) : SlashFree (parts path) :=
  fun _ => Text.not_mem_of_mem_pieces

theorem ofParts_parts (path : String) : ofParts (parts path) = path :=
  Text.intercalate_pieces '/' path

/-- Names of which only one means something by itself. -/
def HasOneName (names : List String) : Prop :=
  ∃ before name after, names = before ++ name :: after ∧ ¬isIdle name ∧
    (∀ other ∈ before, isIdle other) ∧ ∀ other ∈ after, isIdle other

theorem isIdle_of_mem_takeWhile {parts : List String} {part : String}
    (listed : part ∈ (parts.takeWhile isIdle).reverse) : isIdle part :=
  List.all_eq_true.mp List.all_takeWhile part (List.mem_reverse.mp listed)

theorem exists_of_dropWhile_isIdle {inner rest : List String} {name : String}
    (ends : inner.reverse.dropWhile isIdle = name :: rest) :
    ∃ later, inner = (rest.dropWhile isIdle).reverse ++ later ∧ HasOneName later := by
  have last : ¬isIdle name := by
    have first := List.head_dropWhile_not isIdle (l := inner.reverse) (by simp [ends])
    simpa [ends] using first
  have whole : inner = rest.reverse ++ name :: (inner.reverse.takeWhile isIdle).reverse := by
    have split := List.takeWhile_append_dropWhile (p := isIdle) (l := inner.reverse)
    rw [ends] at split
    simpa using congrArg List.reverse split.symm
  have outer : rest.reverse =
      (rest.dropWhile isIdle).reverse ++ (rest.takeWhile isIdle).reverse := by
    rw [← List.reverse_append, List.takeWhile_append_dropWhile]
  rw [outer, List.append_assoc] at whole
  exact ⟨_, whole, _, name, _, rfl, last, fun _ => isIdle_of_mem_takeWhile,
    fun _ => isIdle_of_mem_takeWhile⟩

theorem parts_of_isAbsolute {path : String} (absolute : isAbsolute path) :
    ∃ inner, parts path = "" :: inner := by
  rw [isAbsolute, decide_eq_true_eq, List.head?_eq_some_iff] at absolute
  obtain ⟨rest, split⟩ := absolute
  refine ⟨(rest.splitOn '/').map String.ofList, ?_⟩
  have cut : ('/' :: rest).splitOn '/' = [] :: rest.splitOn '/' :=
    List.splitOn_append_cons_self [] rest
  rw [parts, split, cut]
  rfl

/-- The parent of a path is put together from its first parts, of which the rest has one name. -/
theorem parts_of_parent? {path parent : String} (found : parent? path = some parent)
    (written : parent ≠ "") :
    ∃ outer later, parts path = outer ++ later ∧ HasOneName later ∧
      (parent = ofParts outer ∨ outer = [""] ∧ parent = "/") := by
  by_cases absolute : isAbsolute path
  · obtain ⟨inner, cut⟩ := parts_of_isAbsolute absolute
    cases ends : inner.reverse.dropWhile isIdle with
    | nil => simp [parent?, absolute, cut, ends] at found
    | cons name rest =>
        obtain ⟨later, split, single⟩ := exists_of_dropWhile_isIdle ends
        rw [parent?_of_absolute absolute cut ends, Option.some.injEq] at found
        refine ⟨"" :: (rest.dropWhile isIdle).reverse, later, by rw [cut, split]; rfl, single, ?_⟩
        by_cases none : (rest.dropWhile isIdle).reverse = []
        · rw [none] at found ⊢
          exact .inr ⟨rfl, found.symm⟩
        · exact .inl (found.symm.trans (ofParts_empty_cons none).symm)
  · have relative : isAbsolute path = false := by simpa using absolute
    by_cases dotted : (parts path).head? = some "."
    · obtain ⟨inner, cut⟩ := List.head?_eq_some_iff.mp dotted
      cases ends : inner.reverse.dropWhile isIdle with
      | nil =>
          exact absurd (by simpa [parent?, relative, cut, ends] using found) written
      | cons name rest =>
          obtain ⟨later, split, single⟩ := exists_of_dropWhile_isIdle ends
          rw [parent?_of_relative relative cut ends, Option.some.injEq] at found
          exact ⟨_, later, by rw [cut, split]; rfl, single, .inl found.symm⟩
    · cases ends : (parts path).reverse.dropWhile isIdle with
      | nil => simp [parent?, relative, dotted, ends] at found
      | cons name rest =>
          obtain ⟨later, split, single⟩ := exists_of_dropWhile_isIdle ends
          refine ⟨_, later, split, single, .inl ?_⟩
          simp only [parent?, relative, dotted, ends, decide_false, Bool.and_false, Bool.or_false,
            Bool.false_eq_true, if_false] at found
          cases kept : (rest.dropWhile isIdle).reverse with
          | nil => exact absurd (by simpa [kept] using found) written
          | cons first others => simpa [kept, ofParts] using found.symm

theorem HasOneName.ne_nil {names : List String} (single : HasOneName names) : names ≠ [] := by
  obtain ⟨before, name, after, rfl, -⟩ := single
  simp

theorem isAbsolute_ofParts_append {outer rest : List String} (written : ofParts outer ≠ "")
    (further : rest ≠ []) : isAbsolute (ofParts (outer ++ rest)) = isAbsolute (ofParts outer) := by
  have nonempty : outer ≠ [] := by
    rintro rfl
    exact written rfl
  obtain ⟨c, tail, split⟩ :=
    List.exists_cons_of_ne_nil (l := (ofParts outer).toList) (by simpa using written)
  rw [ofParts_append nonempty further]
  simp [isAbsolute, split]

theorem isAbsolute_of_parent? {path parent : String} (found : parent? path = some parent)
    (written : parent ≠ "") : isAbsolute path = isAbsolute parent := by
  obtain ⟨outer, later, split, single, same | ⟨rfl, rfl⟩⟩ := parts_of_parent? found written
  · subst same
    rw [← ofParts_parts path, split]
    exact isAbsolute_ofParts_append written single.ne_nil
  · rw [← ofParts_parts path, split]
    exact isAbsolute_ofParts_empty single.ne_nil

/-- A path has the names of its parent and one more name. -/
theorem namesOfEntry_of_parent? {path parent : String} (found : parent? path = some parent)
    (written : parent ≠ "") :
    ∃ later, namesOfEntry path = namesOfEntry parent ++ later ∧ HasOneName later := by
  obtain ⟨outer, later, split, single, whole⟩ := parts_of_parent? found written
  have free : SlashFree outer :=
    fun part member => slashFree_parts path part (split ▸ List.mem_append_left _ member)
  have names : namesOfEntry parent = outer.filter (· ≠ "") := by
    rcases whole with rfl | ⟨rfl, rfl⟩
    · have nonempty : outer ≠ [] := by
        rintro rfl
        exact written rfl
      exact namesOfEntry_ofParts nonempty free
    · decide
  refine ⟨later.filter (· ≠ ""), by rw [namesOfEntry, split, List.filter_append, names], ?_⟩
  obtain ⟨before, name, after, rfl, last, idleBefore, idleAfter⟩ := single
  have kept : name ≠ "" := by
    rintro rfl
    exact last (by decide)
  refine ⟨before.filter (· ≠ ""), name, after.filter (· ≠ ""), ?_, last,
    fun other member => idleBefore other ((List.mem_filter.mp member).1),
    fun other member => idleAfter other ((List.mem_filter.mp member).1)⟩
  rw [List.filter_append, List.filter_cons_of_pos (by simpa using kept)]

/-! ## Joined paths -/

section Join

variable {directory path : String}

theorem parts_slash (first second : String) :
    parts (first ++ "/" ++ second) = parts first ++ parts second := by
  have cut : (first ++ "/" ++ second).toList = first.toList ++ '/' :: second.toList := by simp
  rw [parts, cut, List.splitOn_append_cons_self, List.map_append]
  rfl

theorem namesOfEntry_slash (first second : String) :
    namesOfEntry (first ++ "/" ++ second) = namesOfEntry first ++ namesOfEntry second := by
  rw [namesOfEntry, parts_slash, List.filter_append]
  rfl

theorem namesOfEntry_join (relative : isAbsolute path = false) (written : directory ≠ "") :
    namesOfEntry (join directory path) = namesOfEntry directory ++ namesOfEntry path := by
  rw [join, relative, if_neg (by simp [written])]
  split
  · rename_i slash
    rw [endsInSlash, decide_eq_true_eq, List.getLast?_eq_some_iff] at slash
    obtain ⟨before, split⟩ := slash
    have whole : directory = String.ofList before ++ "/" ++ "" := by
      rw [← String.toList_inj, split]
      simp
    have again : directory ++ path = String.ofList before ++ "/" ++ path := by
      rw [whole, String.append_empty]
    rw [again, namesOfEntry_slash, whole, namesOfEntry_slash]
    have none : namesOfEntry "" = [] := by decide
    rw [none, List.append_nil]
  · exact namesOfEntry_slash directory path

theorem isAbsolute_join (relative : isAbsolute path = false) (written : directory ≠ "") :
    isAbsolute (join directory path) = isAbsolute directory := by
  obtain ⟨c, tail, split⟩ :=
    List.exists_cons_of_ne_nil (l := directory.toList) (by simpa using written)
  rw [join, relative, if_neg (by simp [written])]
  split
  · simp [isAbsolute, split]
  · simp [isAbsolute, split]

theorem mem_of_append_eq_concat {front rest outer : List String} {last : String}
    (same : front ++ rest = outer ++ [last]) (nonempty : rest ≠ []) : last ∈ rest := by
  have ends := congrArg List.getLast? same
  rw [List.getLast?_append, List.getLast?_eq_some_getLast nonempty, Option.some_or,
    List.getLast?_concat, Option.some.injEq] at ends
  exact ends ▸ List.getLast_mem nonempty

theorem HasOneName.eq_of_append {outer front later : List String} {first last : String}
    (single : HasOneName later) (firstName : ¬isIdle first) (lastName : ¬isIdle last)
    (same : front ++ later = outer ++ [first, last]) : front = outer ++ [first] := by
  obtain ⟨before, name, after, rfl, -, idleBefore, idleAfter⟩ := single
  rw [List.append_cons outer, List.append_cons before, ← List.append_assoc] at same
  -- Neither of the two names is among those that mean nothing.
  have afterNone : after = [] := Classical.byContradiction fun nonempty =>
    lastName (idleAfter last (mem_of_append_eq_concat same nonempty))
  rw [afterNone, List.append_nil, ← List.append_assoc] at same
  have inner := (List.append_inj' same rfl).1
  have beforeNone : before = [] := Classical.byContradiction fun nonempty =>
    firstName (idleBefore first (mem_of_append_eq_concat inner nonempty))
  rwa [beforeNone, List.append_nil] at inner

end Join

/-! ## Paths with a last name -/

section Ends

variable {path name : String}

/-- A path with a certain last name. -/
def EndsIn (path name : String) : Prop := path = name ∨ ∃ before, path = before ++ "/" ++ name

theorem EndsIn.join (ends : EndsIn path name) (directory : String) :
    EndsIn (Location.join directory path) name := by
  rw [Location.join]
  split
  · exact ends
  · right
    split
    · rename_i slash
      rw [endsInSlash, decide_eq_true_eq, List.getLast?_eq_some_iff] at slash
      obtain ⟨before, split⟩ := slash
      have whole : directory = String.ofList before ++ "/" := by
        rw [← String.toList_inj, split]
        simp
      rcases ends with rfl | ⟨inner, rfl⟩
      · exact ⟨_, by rw [whole]⟩
      · exact ⟨directory ++ inner, by simp only [String.append_assoc]⟩
    · rcases ends with rfl | ⟨inner, rfl⟩
      · exact ⟨directory, rfl⟩
      · exact ⟨directory ++ "/" ++ inner, by simp only [String.append_assoc]⟩

theorem endsIn_ofParts_concat (outer : List String) (name : String) :
    EndsIn (ofParts (outer ++ [name])) name := by
  by_cases none : outer = []
  · rw [none, List.nil_append, ofParts_singleton]
    exact .inl rfl
  · rw [ofParts_append none (List.cons_ne_nil _ _), ofParts_singleton]
    exact .inr ⟨_, rfl⟩

theorem namesOfEntry_part (nonempty : name ≠ "") (free : '/' ∉ name.toList) :
    namesOfEntry name = [name] := by
  have names := namesOfEntry_ofParts (List.cons_ne_nil name []) (.cons free slashFree_nil)
  rwa [ofParts_singleton, List.filter_cons_of_pos (by simpa using nonempty)] at names

theorem EndsIn.getLast?_eq (ends : EndsIn path name) (nonempty : name ≠ "")
    (free : '/' ∉ name.toList) : (namesOfEntry path).getLast? = some name := by
  rcases ends with rfl | ⟨before, rfl⟩
  · rw [namesOfEntry_part nonempty free]
    rfl
  · rw [namesOfEntry_slash, namesOfEntry_part nonempty free, List.getLast?_concat]

theorem IsName.relative (isName : IsName name) : isAbsolute name = false := by
  rw [← ofParts_singleton name]
  exact isAbsolute_ofParts_cons isName.ne_empty isName.slash_free []

/-- A path that does not end in a slash has no other last name. -/
theorem EndsIn.eq_of_getLast? {last : String} (ends : EndsIn path name)
    (free : '/' ∉ name.toList) (named : endsInSlash path = false)
    (listed : last ∈ (namesOfEntry path).getLast?) : last = name := by
  by_cases empty : name = ""
  · subst empty
    rcases ends with rfl | ⟨before, rfl⟩
    · have none : (namesOfEntry "").getLast? = none := by decide
      rw [none] at listed
      cases listed
    · simp [endsInSlash] at named
  · rw [ends.getLast?_eq empty free] at listed
    exact (Option.some.inj listed).symm

theorem EndsIn.endsInSlash_eq (ends : EndsIn path name) (isName : IsName name) :
    endsInSlash path = false := by
  have nonempty : name.toList ≠ [] := by simpa using isName.ne_empty
  have last : path.toList.getLast? = name.toList.getLast? := by
    rcases ends with rfl | ⟨before, rfl⟩
    · rfl
    · rw [String.toList_append, List.getLast?_append, List.getLast?_eq_some_getLast nonempty,
        Option.some_or]
  rw [endsInSlash, last, decide_eq_false_iff_not, List.getLast?_eq_some_iff]
  rintro ⟨before, split⟩
  exact isName.slash_free (split ▸ List.mem_append_right _ (List.mem_singleton.mpr rfl))

theorem names_join_name {directory : String} (written : directory ≠ "") (isName : IsName name) :
    names (join directory name) = namesOfEntry directory ++ [name] := by
  have ends : EndsIn name name := .inl rfl
  rw [names_eq_namesOfEntry ((ends.join directory).endsInSlash_eq isName),
    namesOfEntry_join isName.relative written, namesOfEntry_part isName.ne_empty isName.slash_free]

end Ends

end Location
end TagStore
