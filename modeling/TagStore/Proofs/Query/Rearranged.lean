import TagStore.Proofs.Query.Match

/-!
# Order and repetition in queries

Whether a query matches depends on the expressions in it and on the tags of a file, but not on the
order in which they are listed nor on how often they are.  This holds for the expressions in groups
as well, however deep.
-/

namespace TagStore
namespace Query

/-- Expressions that become others by changing their order and by repeating them or leaving
repetitions out, in the list itself and in the groups of it. -/
inductive Rearranged : List Expr → List Expr → Prop
  /-- Nothing changes. -/
  | refl (exprs : List Expr) : Rearranged exprs exprs
  /-- Two neighbours change places. -/
  | swap (first second : Expr) (rest : List Expr) :
      Rearranged (first :: second :: rest) (second :: first :: rest)
  /-- An expression is repeated. -/
  | again (expr : Expr) (rest : List Expr) : Rearranged (expr :: rest) (expr :: expr :: rest)
  /-- A repetition is left out. -/
  | once (expr : Expr) (rest : List Expr) : Rearranged (expr :: expr :: rest) (expr :: rest)
  /-- The contents of a group are rearranged. -/
  | inside {inner other : List Expr} (rest : List Expr) : Rearranged inner other →
      Rearranged (.group inner :: rest) (.group other :: rest)
  /-- What comes after an expression is rearranged. -/
  | cons (expr : Expr) {rest others : List Expr} : Rearranged rest others →
      Rearranged (expr :: rest) (expr :: others)
  /-- One change follows another. -/
  | trans {exprs between others : List Expr} : Rearranged exprs between →
      Rearranged between others → Rearranged exprs others

namespace Rearranged

variable {exprs others inner other : List Expr}

theorem symm (rearranged : Rearranged exprs others) : Rearranged others exprs := by
  induction rearranged with
  | refl exprs => exact .refl exprs
  | swap first second rest => exact .swap second first rest
  | again expr rest => exact .once expr rest
  | once expr rest => exact .again expr rest
  | inside rest _ induction => exact .inside rest induction
  | cons expr _ induction => exact .cons expr induction
  | trans _ _ first second => exact .trans second first

/-! ## Lists with the same expressions -/

theorem of_perm (permuted : exprs.Perm others) : Rearranged exprs others := by
  induction permuted with
  | nil => exact .refl []
  | cons expr _ induction => exact .cons expr induction
  | swap first second rest => exact .swap second first rest
  | trans _ _ first second => exact .trans first second

theorem absorb {expr : Expr} (member : expr ∈ exprs) : Rearranged exprs (expr :: exprs) := by
  induction exprs with
  | nil => cases member
  | cons head rest induction =>
      rcases List.mem_cons.mp member with rfl | later
      · exact .again expr rest
      · exact .trans (.cons head (induction later)) (.swap head expr rest)

theorem append_of_subset (among : exprs ⊆ others) : Rearranged others (exprs ++ others) := by
  induction exprs with
  | nil => exact .refl others
  | cons head rest induction =>
      obtain ⟨first, later⟩ := List.cons_subset.mp among
      exact .trans (induction later) (absorb (List.mem_append_right rest first))

/-- Lists with the same expressions differ in order and repetition alone. -/
theorem of_mem_iff (same : ∀ expr, expr ∈ exprs ↔ expr ∈ others) : Rearranged exprs others := by
  have longer : Rearranged exprs (others ++ exprs) :=
    append_of_subset fun expr member => (same expr).mpr member
  have further : Rearranged others (exprs ++ others) :=
    append_of_subset fun expr member => (same expr).mp member
  exact .trans longer (.trans (of_perm List.perm_append_comm) further.symm)

/-! ## What stands in rearranged lists -/

theorem test_mem (rearranged : Rearranged exprs others) {test : TagTest}
    (member : .test test ∈ exprs) : .test test ∈ others := by
  induction rearranged with
  | refl => exact member
  | swap first second rest => exact (List.Perm.swap second first rest).mem_iff.mp member
  | again expr rest => exact List.mem_cons_of_mem expr member
  | once expr rest => exact (List.mem_cons.mp member).elim (· ▸ List.mem_cons_self) id
  | inside rest _ _ =>
      rcases List.mem_cons.mp member with group | later
      · cases group
      · exact List.mem_cons_of_mem _ later
  | cons expr _ induction =>
      rcases List.mem_cons.mp member with rfl | later
      · exact List.mem_cons_self
      · exact List.mem_cons_of_mem expr (induction later)
  | trans _ _ first second => exact second (first member)

/-- A group stays where it is or has its contents rearranged. -/
theorem exists_group (rearranged : Rearranged exprs others) (member : .group inner ∈ exprs) :
    ∃ other, .group other ∈ others ∧ Rearranged inner other := by
  induction rearranged generalizing inner with
  | refl => exact ⟨inner, member, .refl inner⟩
  | swap first second rest =>
      exact ⟨inner, (List.Perm.swap second first rest).mem_iff.mp member, .refl inner⟩
  | again expr rest => exact ⟨inner, List.mem_cons_of_mem expr member, .refl inner⟩
  | once expr rest =>
      exact ⟨inner, (List.mem_cons.mp member).elim (· ▸ List.mem_cons_self) id, .refl inner⟩
  | inside rest changed _ =>
      rcases List.mem_cons.mp member with here | later
      · cases here
        exact ⟨_, List.mem_cons_self, changed⟩
      · exact ⟨inner, List.mem_cons_of_mem _ later, .refl inner⟩
  | cons expr _ induction =>
      rcases List.mem_cons.mp member with rfl | later
      · exact ⟨inner, List.mem_cons_self, .refl inner⟩
      · obtain ⟨other, among, changed⟩ := induction later
        exact ⟨other, List.mem_cons_of_mem expr among, changed⟩
  | trans _ _ first second =>
      obtain ⟨between, among, changed⟩ := first member
      obtain ⟨other, among, further⟩ := second among
      exact ⟨other, among, .trans changed further⟩

theorem mem_testsOf_iff (rearranged : Rearranged exprs others) {kind : Kind} {test : TagTest} :
    test ∈ testsOf kind exprs ↔ test ∈ testsOf kind others := by
  rw [Query.mem_testsOf_iff, Query.mem_testsOf_iff]
  exact and_congr_left fun _ => ⟨rearranged.test_mem, rearranged.symm.test_mem⟩

theorem testsOf_eq_nil_iff (rearranged : Rearranged exprs others) {kind : Kind} :
    testsOf kind exprs = [] ↔ testsOf kind others = [] := by
  simp only [List.eq_nil_iff_forall_not_mem, rearranged.mem_testsOf_iff]

end Rearranged

/-! ## What rearranged lists say of the same tags -/

variable {tags further : List Tag} {exprs others : List Expr} {query other : Query}

theorem TagTest.found_congr (same : ∀ tag, tag ∈ tags ↔ tag ∈ further) (test : TagTest) :
    test.Found tags ↔ test.Found further := by
  constructor
  · exact fun found => found.of_subset fun tag => (same tag).mp
  · exact fun found => found.of_subset fun tag => (same tag).mpr

theorem Satisfied.of_rearranged (satisfied : Satisfied tags exprs)
    (rearranged : Rearranged exprs others) (same : ∀ tag, tag ∈ tags ↔ tag ∈ further) :
    Satisfied further others := by
  have found := TagTest.found_congr same
  induction satisfied generalizing others with
  | required nonempty all =>
      refine .required (mt rearranged.testsOf_eq_nil_iff.mpr nonempty) fun test member => ?_
      exact (found test).mp (all test (rearranged.mem_testsOf_iff.mpr member))
  | @included exprs test member finds =>
      exact .included (rearranged.mem_testsOf_iff.mp member) ((found test).mp finds)
  | excluded nonempty none =>
      refine .excluded (mt rearranged.testsOf_eq_nil_iff.mpr nonempty) fun test member finds => ?_
      exact none test (rearranged.mem_testsOf_iff.mpr member) ((found test).mpr finds)
  | group member _ induction =>
      obtain ⟨other, among, changed⟩ := rearranged.exists_group (mem_groupsOf_iff.mp member)
      exact .group (mem_groupsOf_iff.mpr among) (induction changed)

theorem Meets.of_rearranged (meets : Meets tags query) (rearranged : Rearranged query other)
    (same : ∀ tag, tag ∈ tags ↔ tag ∈ further) : Meets further other where
  required := by
    intro test member
    exact (TagTest.found_congr same test).mp
      (meets.required test (rearranged.mem_testsOf_iff.mpr member))
  included := by
    rcases meets.included with none | ⟨test, member, finds⟩
    · exact .inl (rearranged.testsOf_eq_nil_iff.mp none)
    · exact .inr ⟨test, rearranged.mem_testsOf_iff.mp member,
        (TagTest.found_congr same test).mp finds⟩
  excluded := by
    intro test member finds
    exact meets.excluded test (rearranged.mem_testsOf_iff.mpr member)
      ((TagTest.found_congr same test).mpr finds)
  groups := by
    intro inner member
    obtain ⟨before, among, changed⟩ := rearranged.symm.exists_group (mem_groupsOf_iff.mp member)
    exact (meets.groups before (mem_groupsOf_iff.mpr among)).of_rearranged changed.symm same

/-- Rearranged queries match the same files, and it makes no difference in which order the tags of a
file are listed nor how often. -/
theorem isMatch_rearranged (rearranged : Rearranged query other)
    (same : ∀ tag, tag ∈ tags ↔ tag ∈ further) : isMatch query tags = isMatch other further := by
  rw [Bool.eq_iff_iff, isMatch_iff_meets, isMatch_iff_meets]
  constructor
  · exact fun meets => meets.of_rearranged rearranged same
  · exact fun meets => meets.of_rearranged rearranged.symm fun tag => (same tag).symm

/-- The query `+a [~b -c]` becomes `[-c ~b -c] +a +a`, and a tag of the file is listed twice. -/
theorem isMatch_rearranged_group :
    let required : Expr := .test ⟨.required, ["a"], none⟩
    let included : Expr := .test ⟨.included, ["b"], none⟩
    let excluded : Expr := .test ⟨.excluded, ["c"], none⟩
    let query : Query := [required, .group [included, excluded]]
    let other : Query := [.group [excluded, included, excluded], required, required]
    let tags : List Tag := [⟨["a"], none⟩, ⟨["c", "d"], some "x"⟩]
    let further : List Tag := [⟨["c", "d"], some "x"⟩, ⟨["a"], none⟩, ⟨["c", "d"], some "x"⟩]
    Rearranged query other ∧ (∀ tag, tag ∈ tags ↔ tag ∈ further) ∧ isMatch query tags = false ∧
      isMatch other further = false := by
  intro required included excluded query other tags further
  have inner : Rearranged [included, excluded] [excluded, included, excluded] :=
    .of_mem_iff (by simp [or_comm])
  have outer : Rearranged [required, .group [excluded, included, excluded]] other :=
    .of_mem_iff (by simp [other, or_comm])
  have rearranged : Rearranged query other := .trans (.cons required (.inside [] inner)) outer
  have same : ∀ tag, tag ∈ tags ↔ tag ∈ further := by simp [tags, further, or_comm]
  have missed : isMatch query tags = false := by decide +kernel
  exact ⟨rearranged, same, missed, isMatch_rearranged rearranged same ▸ missed⟩

end Query
end TagStore
