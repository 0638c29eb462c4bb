import TagStore.Query.Match

/-!
# What a query means

A query is decided in one pass that counts every test into a result with three optional answers.
The decision agrees with what the query says of the tags: all its required tests and groups hold,
some included test does if there is one, and no excluded test does; while a group holds as soon as
one of these kinds of test, or a group inside, gives it a reason to.
-/

namespace TagStore
namespace Query

/-- A tag is what a test looks for: the same path with the value of the test or, without a value,
any path that goes on from that of the test. -/
def TagTest.Fits (test : TagTest) (tag : Tag) : Prop :=
  match test.value with
  | some value => tag.path = test.path ∧ tag.value = some value
  | none => test.path <+: tag.path

/-- Some tag of a file is what a test looks for. -/
def TagTest.Found (tags : List Tag) (test : TagTest) : Prop := ∃ tag ∈ tags, test.Fits tag

/-- The tests of a kind that stand in a list, outside of its groups. -/
def testsOf (kind : Kind) (exprs : List Expr) : List TagTest :=
  exprs.filterMap fun
    | .test test => if test.kind = kind then some test else none
    | .group _ => none

/-- The groups that stand in a list, outside of other groups. -/
def groupsOf (exprs : List Expr) : List (List Expr) :=
  exprs.filterMap fun
    | .test _ => none
    | .group exprs => some exprs

theorem mem_testsOf_iff {kind : Kind} {exprs : List Expr} {test : TagTest} :
    test ∈ testsOf kind exprs ↔ .test test ∈ exprs ∧ test.kind = kind := by
  rw [testsOf, List.mem_filterMap]
  constructor
  · rintro ⟨expr, member, isTest⟩
    cases expr with
    | test other =>
        rw [Option.ite_none_right_eq_some, Option.some.injEq] at isTest
        obtain ⟨same, rfl⟩ := isTest
        exact ⟨member, same⟩
    | group exprs => cases isTest
  · rintro ⟨member, same⟩
    exact ⟨.test test, member, if_pos same⟩

theorem mem_groupsOf_iff {exprs inner : List Expr} :
    inner ∈ groupsOf exprs ↔ .group inner ∈ exprs := by
  rw [groupsOf, List.mem_filterMap]
  constructor
  · rintro ⟨expr, member, isGroup⟩
    cases expr with
    | test test => cases isGroup
    | group other =>
        cases isGroup
        exact member
  · intro member
    exact ⟨.group inner, member, rfl⟩

/-- A group says something true of the tags of a file. -/
inductive Satisfied (tags : List Tag) : List Expr → Prop
  /-- It has required tests, and all of them are found. -/
  | required {exprs : List Expr} : testsOf .required exprs ≠ [] →
      (∀ test ∈ testsOf .required exprs, test.Found tags) → Satisfied tags exprs
  /-- One of its included tests is found. -/
  | included {exprs : List Expr} {test : TagTest} : test ∈ testsOf .included exprs →
      test.Found tags → Satisfied tags exprs
  /-- It has excluded tests, and none of them is found. -/
  | excluded {exprs : List Expr} : testsOf .excluded exprs ≠ [] →
      (∀ test ∈ testsOf .excluded exprs, ¬test.Found tags) → Satisfied tags exprs
  /-- One of its groups is satisfied. -/
  | group {exprs inner : List Expr} : inner ∈ groupsOf exprs → Satisfied tags inner →
      Satisfied tags exprs

/-- Everything that a query says of the tags of a file is true. -/
structure Meets (tags : List Tag) (query : Query) : Prop where
  /-- Every required test is found. -/
  required : ∀ test ∈ testsOf .required query, test.Found tags
  /-- An included test is found, if there is one. -/
  included : testsOf .included query = [] ∨ ∃ test ∈ testsOf .included query, test.Found tags
  /-- No excluded test is found. -/
  excluded : ∀ test ∈ testsOf .excluded query, ¬test.Found tags
  /-- Every group is satisfied. -/
  groups : ∀ group ∈ groupsOf query, Satisfied tags group

/-! ## The results of single tests -/

theorem TagTest.finds_iff {test : TagTest} {tag : Tag} : test.finds tag ↔ test.Fits tag := by
  obtain ⟨kind, path, value⟩ := test
  cases value with
  | none => exact List.isPrefixOf_iff_prefix
  | some value => simp [TagTest.finds, TagTest.Fits]

theorem TagTest.found_iff {test : TagTest} {tags : List Tag} :
    tags.any test.finds ↔ test.Found tags := by
  rw [List.any_eq_true]
  constructor
  · rintro ⟨tag, member, finds⟩
    exact ⟨tag, member, TagTest.finds_iff.mp finds⟩
  · rintro ⟨tag, member, fits⟩
    exact ⟨tag, member, TagTest.finds_iff.mpr fits⟩

theorem TagTest.Found.of_subset {tags further : List Tag} {test : TagTest} (found : test.Found tags)
    (among : tags ⊆ further) : test.Found further := by
  obtain ⟨tag, member, fits⟩ := found
  exact ⟨tag, among member, fits⟩

/-! ## The results of lists -/

/-- What a result says of one kind of test. -/
def Verdict.answer : Kind → Verdict → Option Bool
  | .required => Verdict.required
  | .included => Verdict.included
  | .excluded => Verdict.excluded

/-- Whether tests of a kind, with what was found for each, come out well together. -/
def Kind.comesOut : Kind → List Bool → Bool
  | .required, found => found.all id
  | .included, found => found.any id
  | .excluded, found => found.all not

/-- The answer for tests of a kind with what was found for each; there is none without a test. -/
def Kind.answer (kind : Kind) : List Bool → Option Bool
  | [] => none
  | found => some (kind.comesOut found)

theorem Verdict.answer_addTest (kind : Kind) (found : Bool) (others : List Bool) (result : Verdict)
    (counted : result.answer kind = kind.answer others) :
    (result.addTest kind found).answer kind = kind.answer (found :: others) := by
  cases kind <;> cases others <;>
    simp_all [Verdict.answer, Verdict.addTest, Kind.answer, Kind.comesOut]

theorem Verdict.answer_addTest_of_ne {kind other : Kind} (different : other ≠ kind) (found : Bool)
    (result : Verdict) : (result.addTest other found).answer kind = result.answer kind := by
  cases kind <;> cases other <;> first | rfl | exact absurd rfl different

theorem Verdict.groups_addTest (kind : Kind) (found : Bool) (result : Verdict) :
    (result.addTest kind found).groups = result.groups := by
  cases kind <;> rfl

theorem Verdict.answer_addGroup (kind : Kind) (result group : Verdict) :
    (result.addGroup group).answer kind = result.answer kind := by
  cases kind <;> rfl

theorem answer_evaluate (tags : List Tag) (kind : Kind) (exprs : List Expr) :
    (evaluate tags exprs).answer kind =
      kind.answer ((testsOf kind exprs).map fun test => tags.any test.finds) := by
  induction exprs with
  | nil => cases kind <;> rfl
  | cons expr rest induction =>
      cases expr with
      | test test =>
          by_cases same : test.kind = kind
          · have first : testsOf kind (.test test :: rest) = test :: testsOf kind rest := by
              simp [testsOf, same]
            rw [first, List.map_cons]
            subst same
            exact Verdict.answer_addTest _ _ _ _ induction
          · have skips : testsOf kind (.test test :: rest) = testsOf kind rest := by
              simp [testsOf, same]
            rw [skips, ← induction]
            exact Verdict.answer_addTest_of_ne same _ _
      | group exprs =>
          have skips : testsOf kind (.group exprs :: rest) = testsOf kind rest := by simp [testsOf]
          rw [skips, ← induction]
          exact Verdict.answer_addGroup _ _ _

theorem groups_evaluate (tags : List Tag) (exprs : List Expr) :
    (evaluate tags exprs).groups = (groupsOf exprs).map (evaluate tags) := by
  induction exprs with
  | nil => rfl
  | cons expr rest induction =>
      cases expr with
      | test test => exact (Verdict.groups_addTest _ _ _).trans induction
      | group exprs => exact congrArg (evaluate tags exprs :: ·) induction

theorem answer_evaluate_eq_none_iff (tags : List Tag) (kind : Kind) (exprs : List Expr) :
    (evaluate tags exprs).answer kind = none ↔ testsOf kind exprs = [] := by
  rw [answer_evaluate]
  cases testsOf kind exprs with
  | nil => simp [Kind.answer]
  | cons => simp [Kind.answer]

theorem answer_evaluate_eq_some_iff (tags : List Tag) (kind : Kind) (exprs : List Expr)
    (answer : Bool) :
    (evaluate tags exprs).answer kind = some answer ↔ testsOf kind exprs ≠ [] ∧
      kind.comesOut ((testsOf kind exprs).map fun test => tags.any test.finds) = answer := by
  rw [answer_evaluate]
  cases testsOf kind exprs with
  | nil => simp [Kind.answer]
  | cons => simp [Kind.answer]

theorem comesOut_required_iff (tags : List Tag) (tests : List TagTest) :
    Kind.required.comesOut (tests.map fun test => tags.any test.finds) ↔
      ∀ test ∈ tests, test.Found tags := by
  simp only [Kind.comesOut, List.all_map, List.all_eq_true]
  exact forall₂_congr fun _ _ => TagTest.found_iff

theorem comesOut_included_iff (tags : List Tag) (tests : List TagTest) :
    Kind.included.comesOut (tests.map fun test => tags.any test.finds) ↔
      ∃ test ∈ tests, test.Found tags := by
  simp only [Kind.comesOut, List.any_map, List.any_eq_true]
  exact exists_congr fun _ => and_congr_right fun _ => TagTest.found_iff

theorem comesOut_excluded_iff (tags : List Tag) (tests : List TagTest) :
    Kind.excluded.comesOut (tests.map fun test => tags.any test.finds) ↔
      ∀ test ∈ tests, ¬test.Found tags := by
  simp only [Kind.comesOut, List.all_map, List.all_eq_true]
  apply forall₂_congr
  intro test _
  rw [← TagTest.found_iff, Bool.not_eq_true]
  simp only [Function.comp_apply, Bool.not_eq_true']

/-! ## The decision -/

theorem sizeOf_lt_of_mem_groupsOf {exprs inner : List Expr} (member : inner ∈ groupsOf exprs) :
    sizeOf inner < sizeOf exprs := by
  have smaller := List.sizeOf_lt_of_mem (mem_groupsOf_iff.mp member)
  simp only [Expr.group.sizeOf_spec] at smaller
  omega

theorem Verdict.satisfies_iff (result : Verdict) :
    result.satisfies ↔ (∃ kind, result.answer kind = some true) ∨
      ∃ group ∈ result.groups, group.satisfies := by
  rcases result with ⟨required, included, excluded, groups⟩
  rw [Verdict.satisfies, Verdict.anySatisfies_eq_any, Bool.or_eq_true, List.contains_iff_mem,
    List.any_eq_true]
  apply or_congr_left
  constructor
  · intro member
    simp only [List.mem_cons, List.not_mem_nil, or_false] at member
    rcases member with found | found | found
    · exact ⟨.required, found.symm⟩
    · exact ⟨.included, found.symm⟩
    · exact ⟨.excluded, found.symm⟩
  · rintro ⟨kind, found⟩
    cases kind <;> simp [← found, Verdict.answer]

theorem satisfies_evaluate_iff_answers (tags : List Tag) (exprs : List Expr) :
    (evaluate tags exprs).satisfies ↔ (∃ kind, (evaluate tags exprs).answer kind = some true) ∨
      ∃ inner ∈ groupsOf exprs, (evaluate tags inner).satisfies := by
  rw [Verdict.satisfies_iff, groups_evaluate, ← List.any_eq_true, List.any_map, List.any_eq_true]
  rfl

/-- A list of expressions satisfies a group exactly if it says something true. -/
theorem satisfies_evaluate_iff (tags : List Tag) (exprs : List Expr) :
    (evaluate tags exprs).satisfies ↔ Satisfied tags exprs := by
  constructor
  · intro satisfies
    rcases (satisfies_evaluate_iff_answers tags exprs).mp satisfies with
      ⟨kind, found⟩ | ⟨inner, member, satisfies⟩
    · obtain ⟨nonempty, comesOut⟩ := (answer_evaluate_eq_some_iff tags kind exprs true).mp found
      cases kind with
      | required => exact .required nonempty ((comesOut_required_iff tags _).mp comesOut)
      | included =>
          obtain ⟨test, member, found⟩ := (comesOut_included_iff tags _).mp comesOut
          exact .included member found
      | excluded => exact .excluded nonempty ((comesOut_excluded_iff tags _).mp comesOut)
    · have := sizeOf_lt_of_mem_groupsOf member
      exact .group member ((satisfies_evaluate_iff tags inner).mp satisfies)
  · intro satisfied
    induction satisfied with
    | @required exprs nonempty found =>
        have comesOut := (comesOut_required_iff tags _).mpr found
        exact (satisfies_evaluate_iff_answers tags exprs).mpr
          (.inl ⟨_, (answer_evaluate_eq_some_iff tags _ exprs true).mpr ⟨nonempty, comesOut⟩⟩)
    | @included exprs test member found =>
        have comesOut := (comesOut_included_iff tags _).mpr ⟨test, member, found⟩
        have nonempty := List.ne_nil_of_mem member
        exact (satisfies_evaluate_iff_answers tags exprs).mpr
          (.inl ⟨_, (answer_evaluate_eq_some_iff tags _ exprs true).mpr ⟨nonempty, comesOut⟩⟩)
    | @excluded exprs nonempty missing =>
        have comesOut := (comesOut_excluded_iff tags _).mpr missing
        exact (satisfies_evaluate_iff_answers tags exprs).mpr
          (.inl ⟨_, (answer_evaluate_eq_some_iff tags _ exprs true).mpr ⟨nonempty, comesOut⟩⟩)
    | @group exprs inner member _ induction =>
        exact (satisfies_evaluate_iff_answers tags exprs).mpr (.inr ⟨inner, member, induction⟩)
  termination_by sizeOf exprs

theorem answer_evaluate_ne_some_false_iff (tags : List Tag) (kind : Kind) (exprs : List Expr) :
    (evaluate tags exprs).answer kind ≠ some false ↔ testsOf kind exprs = [] ∨
      kind.comesOut ((testsOf kind exprs).map fun test => tags.any test.finds) = true := by
  rw [ne_eq, answer_evaluate_eq_some_iff, Decidable.not_and_iff_not_or_not, ne_eq,
    Decidable.not_not, Bool.not_eq_false]

theorem Verdict.isMatch_iff (result : Verdict) :
    result.isMatch ↔ (∀ kind, result.answer kind ≠ some false) ∧
      ∀ group ∈ result.groups, group.satisfies := by
  rw [Verdict.isMatch, Bool.and_eq_true, List.all_eq_true, List.all_eq_true]
  apply and_congr_left
  intro _
  constructor
  · intro each kind
    have spares := each (result.answer kind) (by cases kind <;> simp [Verdict.answer])
    exact of_decide_eq_true spares
  · intro each
    simpa using ⟨each .required, each .included, each .excluded⟩

/-- A query matches exactly if everything it says is true. -/
theorem isMatch_iff_meets (tags : List Tag) (query : Query) :
    isMatch query tags ↔ Meets tags query := by
  rw [isMatch, Verdict.isMatch_iff, groups_evaluate]
  simp only [answer_evaluate_ne_some_false_iff, List.forall_mem_map, satisfies_evaluate_iff]
  constructor
  · rintro ⟨answers, groups⟩
    refine ⟨?_, ?_, ?_, groups⟩
    · rcases answers .required with none | comesOut
      · simp [none]
      · exact (comesOut_required_iff tags _).mp comesOut
    · exact (answers .included).imp id (comesOut_included_iff tags _).mp
    · rcases answers .excluded with none | comesOut
      · simp [none]
      · exact (comesOut_excluded_iff tags _).mp comesOut
  · intro meets
    refine ⟨fun kind => ?_, meets.groups⟩
    cases kind with
    | required => exact .inr ((comesOut_required_iff tags _).mpr meets.required)
    | included => exact meets.included.imp id (comesOut_included_iff tags _).mpr
    | excluded => exact .inr ((comesOut_excluded_iff tags _).mpr meets.excluded)

/-- The decision on a query is what the query says.  It rests on one result for each group, in
order, and on an answer for just those kinds of test that the query has. -/
theorem evaluate_decides (tags : List Tag) (exprs : List Expr) :
    (isMatch exprs tags ↔ Meets tags exprs) ∧
      ((evaluate tags exprs).satisfies ↔ Satisfied tags exprs) ∧
      (evaluate tags exprs).groups = (groupsOf exprs).map (evaluate tags) ∧
      ((evaluate tags exprs).required = none ↔ testsOf .required exprs = []) ∧
      ((evaluate tags exprs).included = none ↔ testsOf .included exprs = []) ∧
      ((evaluate tags exprs).excluded = none ↔ testsOf .excluded exprs = []) :=
  ⟨isMatch_iff_meets tags exprs, satisfies_evaluate_iff tags exprs, groups_evaluate tags exprs,
    answer_evaluate_eq_none_iff tags .required exprs,
    answer_evaluate_eq_none_iff tags .included exprs,
    answer_evaluate_eq_none_iff tags .excluded exprs⟩

end Query
end TagStore
