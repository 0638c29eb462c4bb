import TagStore.Proofs.Query.Match
import Mathlib.Data.List.Forall2

/-!
# Queries and further tags

A file that gets further tags passes every test that it passed before, unless the test excludes a
tag.  So it still matches a query without excluded tests, and a file that loses tags still matches a
query of nothing but excluded tests.  The same holds for every group, at whatever depth it stands.
-/

namespace TagStore
namespace Query

/-! ## Tests and results at any depth -/

mutual

/-- The tests of an expression, at whatever depth they stand. -/
def Expr.tests : Expr → List TagTest
  | .test single => [single]
  | .group exprs => allTests exprs

/-- The tests of a list of expressions, at whatever depth they stand. -/
def allTests : List Expr → List TagTest
  | [] => []
  | expr :: rest => expr.tests ++ allTests rest

end

namespace Verdict

mutual

/-- A result and those of the groups in it, at whatever depth. -/
def levels : Verdict → List Verdict
  | ⟨required, included, excluded, groups⟩ =>
    ⟨required, included, excluded, groups⟩ :: allLevels groups

/-- Several results, each with those of the groups in it. -/
def allLevels : List Verdict → List Verdict
  | [] => []
  | result :: rest => result.levels ++ allLevels rest

end

theorem allLevels_eq_flatMap (results : List Verdict) :
    allLevels results = results.flatMap levels := by
  induction results with
  | nil => rfl
  | cons result rest induction => rw [allLevels, induction, List.flatMap_cons]

theorem levels_eq (result : Verdict) : result.levels = result :: result.groups.flatMap levels := by
  rw [← allLevels_eq_flatMap]
  cases result
  rfl

end Verdict

variable {tags further : List Tag} {exprs inner : List Expr} {query : Query} {test : TagTest}

theorem mem_allTests_of_mem {expr : Expr} (member : expr ∈ exprs) (among : test ∈ expr.tests) :
    test ∈ allTests exprs := by
  induction exprs with
  | nil => cases member
  | cons head rest induction =>
      rw [allTests, List.mem_append]
      rcases List.mem_cons.mp member with rfl | later
      · exact .inl among
      · exact .inr (induction later)

theorem mem_allTests_of_mem_testsOf {kind : Kind} (member : test ∈ testsOf kind exprs) :
    test ∈ allTests exprs :=
  mem_allTests_of_mem (mem_testsOf_iff.mp member).1 (List.mem_singleton.mpr rfl)

theorem allTests_subset_of_mem_groupsOf (member : inner ∈ groupsOf exprs) :
    allTests inner ⊆ allTests exprs :=
  fun _ among => mem_allTests_of_mem (mem_groupsOf_iff.mp member) among

/-! ## Tests that come out no worse -/

/-- If one file passes a test, another one does. -/
def TagTest.NoWorse (tags further : List Tag) (test : TagTest) : Prop :=
  match test.kind with
  | .required | .included => test.Found tags → test.Found further
  | .excluded => ¬test.Found tags → ¬test.Found further

theorem TagTest.noWorse_of_ne_excluded (among : tags ⊆ further) (other : test.kind ≠ .excluded) :
    test.NoWorse tags further := by
  rw [NoWorse]
  split
  · exact fun found => found.of_subset among
  · exact fun found => found.of_subset among
  · rename_i excluded
    exact absurd excluded other

theorem TagTest.noWorse_of_excluded (among : tags ⊆ further) (excluded : test.kind = .excluded) :
    test.NoWorse further tags := by
  rw [NoWorse, excluded]
  exact mt fun found => found.of_subset among

section NoWorse

variable (noWorse : ∀ test ∈ allTests exprs, test.NoWorse tags further)

include noWorse

theorem found_of_noWorse {kind : Kind} (other : kind ≠ .excluded)
    (member : test ∈ testsOf kind exprs) (found : test.Found tags) : test.Found further := by
  have better := noWorse test (mem_allTests_of_mem_testsOf member)
  rw [TagTest.NoWorse, (mem_testsOf_iff.mp member).2] at better
  cases kind with
  | required => exact better found
  | included => exact better found
  | excluded => exact absurd rfl other

theorem not_found_of_noWorse (member : test ∈ testsOf .excluded exprs)
    (missing : ¬test.Found tags) : ¬test.Found further := by
  have better := noWorse test (mem_allTests_of_mem_testsOf member)
  rw [TagTest.NoWorse, (mem_testsOf_iff.mp member).2] at better
  exact better missing

theorem noWorse_of_mem_groupsOf (member : inner ∈ groupsOf exprs) :
    ∀ test ∈ allTests inner, test.NoWorse tags further :=
  fun test among => noWorse test (allTests_subset_of_mem_groupsOf member among)

end NoWorse

/-- By induction on what satisfies a group: it does so in every file where no test is worse. -/
theorem Satisfied.of_noWorse (satisfied : Satisfied tags exprs)
    (noWorse : ∀ test ∈ allTests exprs, test.NoWorse tags further) : Satisfied further exprs := by
  induction satisfied with
  | required nonempty all =>
      refine .required nonempty fun test member => ?_
      exact found_of_noWorse noWorse (by decide) member (all test member)
  | included member found =>
      exact .included member (found_of_noWorse noWorse (by decide) member found)
  | excluded nonempty none =>
      refine .excluded nonempty fun test member => ?_
      exact not_found_of_noWorse noWorse member (none test member)
  | group member _ induction =>
      exact .group member (induction (noWorse_of_mem_groupsOf noWorse member))

theorem Meets.of_noWorse (meets : Meets tags query)
    (noWorse : ∀ test ∈ allTests query, test.NoWorse tags further) : Meets further query where
  required test member := found_of_noWorse noWorse (by decide) member (meets.required test member)
  included := by
    rcases meets.included with none | ⟨test, member, found⟩
    · exact .inl none
    · exact .inr ⟨test, member, found_of_noWorse noWorse (by decide) member found⟩
  excluded test member := not_found_of_noWorse noWorse member (meets.excluded test member)
  groups inner member :=
    (meets.groups inner member).of_noWorse (noWorse_of_mem_groupsOf noWorse member)

theorem isMatch_of_noWorse (noWorse : ∀ test ∈ allTests query, test.NoWorse tags further)
    (matched : isMatch query tags) : isMatch query further :=
  (isMatch_iff_meets further query).mpr
    (((isMatch_iff_meets tags query).mp matched).of_noWorse noWorse)

/-- The results of a list and of its groups satisfy a group wherever they did before. -/
theorem levels_of_noWorse (exprs : List Expr)
    (noWorse : ∀ test ∈ allTests exprs, test.NoWorse tags further) :
    List.Forall₂ (fun result other => result.satisfies → other.satisfies)
      (evaluate tags exprs).levels (evaluate further exprs).levels := by
  have here (satisfies : (evaluate tags exprs).satisfies) : (evaluate further exprs).satisfies := by
    rw [satisfies_evaluate_iff] at satisfies ⊢
    exact satisfies.of_noWorse noWorse
  have same : List.Forall₂ (fun inner other => inner = other ∧ inner ∈ groupsOf exprs)
      (groupsOf exprs) (groupsOf exprs) :=
    List.forall₂_same.mpr fun _ member => ⟨rfl, member⟩
  rw [Verdict.levels_eq, Verdict.levels_eq, groups_evaluate, groups_evaluate, List.flatMap_map,
    List.flatMap_map]
  refine .cons here (List.rel_flatMap same ?_)
  rintro inner _ ⟨rfl, member⟩
  have := sizeOf_lt_of_mem_groupsOf member
  exact levels_of_noWorse inner (noWorse_of_mem_groupsOf noWorse member)
  termination_by sizeOf exprs

/-- A query without excluded tests that matches some tags matches further tags as well, and a query
of nothing but excluded tests that matches the further tags matches the first ones.  Every result in
that of the query satisfies a group under the same conditions. -/
theorem isMatch_of_subset (among : tags ⊆ further) (query : Query) :
    ((∀ test ∈ allTests query, test.kind ≠ .excluded) →
      (isMatch query tags → isMatch query further) ∧
      List.Forall₂ (fun result other => result.satisfies → other.satisfies)
        (evaluate tags query).levels (evaluate further query).levels) ∧
    ((∀ test ∈ allTests query, test.kind = .excluded) →
      (isMatch query further → isMatch query tags) ∧
      List.Forall₂ (fun result other => result.satisfies → other.satisfies)
        (evaluate further query).levels (evaluate tags query).levels) := by
  constructor
  · intro none
    have noWorse : ∀ test ∈ allTests query, test.NoWorse tags further :=
      fun test member => TagTest.noWorse_of_ne_excluded among (none test member)
    exact ⟨isMatch_of_noWorse noWorse, levels_of_noWorse query noWorse⟩
  · intro all
    have noWorse : ∀ test ∈ allTests query, test.NoWorse further tags :=
      fun test member => TagTest.noWorse_of_excluded among (all test member)
    exact ⟨isMatch_of_noWorse noWorse, levels_of_noWorse query noWorse⟩

/-- A file that matches `+a [~x [+c]]` still does with one tag more, and a file that matches
`-x [-b:y -d]` still does with one tag less. -/
theorem isMatch_of_subset_groups :
    let first : Query := [.test ⟨.required, ["a"], none⟩,
      .group [.test ⟨.included, ["x"], none⟩, .group [.test ⟨.required, ["c"], none⟩]]]
    let second : Query := [.test ⟨.excluded, ["x"], none⟩,
      .group [.test ⟨.excluded, ["b"], some "y"⟩, .test ⟨.excluded, ["d"], none⟩]]
    let tags : List Tag := [⟨["a"], none⟩, ⟨["c", "d"], none⟩]
    let further : List Tag := ⟨["b"], some "z"⟩ :: tags
    tags ⊆ further ∧ (∀ test ∈ allTests first, test.kind ≠ .excluded) ∧ isMatch first tags ∧
      isMatch first further ∧ (∀ test ∈ allTests second, test.kind = .excluded) ∧
      isMatch second further ∧ isMatch second tags := by
  intro first second tags further
  have among : tags ⊆ further := List.subset_cons_self _ _
  have none : ∀ test ∈ allTests first, test.kind ≠ .excluded := by decide
  have all : ∀ test ∈ allTests second, test.kind = .excluded := by decide
  have matched : isMatch first tags := by decide +kernel
  have matchedAfter : isMatch second further := by decide +kernel
  exact ⟨among, none, matched, ((isMatch_of_subset among first).1 none).1 matched, all,
    matchedAfter, ((isMatch_of_subset among second).2 all).1 matchedAfter⟩

end Query
end TagStore
