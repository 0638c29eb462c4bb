import TagStore.Proofs.Query.Match

/-!
# Queries one after the other

Two queries one after the other say what each of them says, except that their included tests are
alternatives to one another.  So a query that is added narrows another one down, unless both have
included tests, and an included test that is added to others widens what they allow.
-/

namespace TagStore
namespace Query

/-- One of some tests is found, if there are any. -/
def SomeFound (tags : List Tag) (tests : List TagTest) : Prop :=
  tests = [] ∨ ∃ test ∈ tests, test.Found tags

/-- Everything that a query says of the tags of a file apart from its included tests is true. -/
structure Demands (tags : List Tag) (query : Query) : Prop where
  /-- Every required test is found. -/
  required : ∀ test ∈ testsOf .required query, test.Found tags
  /-- No excluded test is found. -/
  excluded : ∀ test ∈ testsOf .excluded query, ¬test.Found tags
  /-- Every group is satisfied. -/
  groups : ∀ group ∈ groupsOf query, Satisfied tags group

variable {tags : List Tag} {tests others : List TagTest} {first second query : Query}

theorem meets_iff_demands :
    Meets tags query ↔ Demands tags query ∧ SomeFound tags (testsOf .included query) := by
  constructor
  · intro meets
    exact ⟨⟨meets.required, meets.excluded, meets.groups⟩, meets.included⟩
  · intro ⟨demands, found⟩
    exact ⟨demands.required, found, demands.excluded, demands.groups⟩

/-! ## Alternatives -/

theorem SomeFound.append (one : SomeFound tags tests) (two : SomeFound tags others) :
    SomeFound tags (tests ++ others) := by
  rcases one with rfl | ⟨test, member, found⟩
  · exact two
  · exact .inr ⟨test, List.mem_append_left others member, found⟩

/-- Further tests are further ways to come out well, if there are tests already. -/
theorem SomeFound.append_of_ne_nil (found : SomeFound tags tests) (nonempty : tests ≠ []) :
    SomeFound tags (tests ++ others) := by
  rcases found with none | ⟨test, member, found⟩
  · exact absurd none nonempty
  · exact .inr ⟨test, List.mem_append_left others member, found⟩

/-- Where only one of two lists has tests, they are not alternatives. -/
theorem someFound_append_iff (apart : tests = [] ∨ others = []) :
    SomeFound tags (tests ++ others) ↔ SomeFound tags tests ∧ SomeFound tags others := by
  rcases apart with rfl | rfl
  · exact (and_iff_right (.inl rfl)).symm
  · rw [List.append_nil]
    exact (and_iff_left (.inl rfl)).symm

/-! ## The parts of a query -/

theorem testsOf_append (kind : Kind) (first second : List Expr) :
    testsOf kind (first ++ second) = testsOf kind first ++ testsOf kind second :=
  List.filterMap_append

theorem groupsOf_append (first second : List Expr) :
    groupsOf (first ++ second) = groupsOf first ++ groupsOf second :=
  List.filterMap_append

theorem demands_append_iff :
    Demands tags (first ++ second) ↔ Demands tags first ∧ Demands tags second := by
  constructor
  · rintro ⟨required, excluded, groups⟩
    rw [testsOf_append, List.forall_mem_append] at required excluded
    rw [groupsOf_append, List.forall_mem_append] at groups
    exact ⟨⟨required.1, excluded.1, groups.1⟩, ⟨required.2, excluded.2, groups.2⟩⟩
  · rintro ⟨one, two⟩
    refine ⟨?_, ?_, ?_⟩
    · rw [testsOf_append]
      exact List.forall_mem_append.mpr ⟨one.required, two.required⟩
    · rw [testsOf_append]
      exact List.forall_mem_append.mpr ⟨one.excluded, two.excluded⟩
    · rw [groupsOf_append]
      exact List.forall_mem_append.mpr ⟨one.groups, two.groups⟩

theorem demands_included {test : TagTest} (included : test.kind = .included) :
    Demands tags [.test test] := by
  refine ⟨?_, ?_, ?_⟩
  · simp [testsOf, included]
  · simp [testsOf, included]
  · simp [groupsOf]

theorem testsOf_eq_nil_of_ne {kind : Kind} (none : ∀ test, .test test ∈ query → test.kind ≠ kind) :
    testsOf kind query = [] := by
  rw [List.eq_nil_iff_forall_not_mem]
  intro test member
  obtain ⟨among, same⟩ := mem_testsOf_iff.mp member
  exact none test among same

theorem meets_append_iff (apart : testsOf .included first = [] ∨ testsOf .included second = []) :
    Meets tags (first ++ second) ↔ Meets tags first ∧ Meets tags second := by
  rw [meets_iff_demands, meets_iff_demands, meets_iff_demands, demands_append_iff, testsOf_append,
    someFound_append_iff apart, and_and_and_comm]

theorem Meets.append (one : Meets tags first) (two : Meets tags second) :
    Meets tags (first ++ second) := by
  obtain ⟨demands, found⟩ := meets_iff_demands.mp one
  obtain ⟨further, other⟩ := meets_iff_demands.mp two
  rw [meets_iff_demands, demands_append_iff, testsOf_append]
  exact ⟨⟨demands, further⟩, found.append other⟩

theorem Meets.append_included (meets : Meets tags query) {test : TagTest}
    (included : test.kind = .included) (already : testsOf .included query ≠ []) :
    Meets tags (query ++ [.test test]) := by
  obtain ⟨demands, found⟩ := meets_iff_demands.mp meets
  rw [meets_iff_demands, demands_append_iff, testsOf_append]
  exact ⟨⟨demands, demands_included included⟩, found.append_of_ne_nil already⟩

/-- Of two queries one after the other both match, where no more than one of them has included
tests, and otherwise they match at least where both do.  So adding required tests, excluded tests
and groups never makes a query match more, and adding an included test to another one never makes
it match less. -/
theorem isMatch_append (tags : List Tag) (first second : Query) :
    (testsOf .included first = [] ∨ testsOf .included second = [] →
      (isMatch (first ++ second) tags ↔ isMatch first tags ∧ isMatch second tags)) ∧
    (isMatch first tags → isMatch second tags → isMatch (first ++ second) tags) ∧
    ((∀ test, .test test ∈ second → test.kind ≠ .included) →
      isMatch (first ++ second) tags → isMatch first tags) ∧
    ∀ test : TagTest, test.kind = .included → testsOf .included first ≠ [] →
      isMatch first tags → isMatch (first ++ [.test test]) tags := by
  simp only [isMatch_iff_meets]
  refine ⟨meets_append_iff, Meets.append, ?_, ?_⟩
  · intro none meets
    exact ((meets_append_iff (.inr (testsOf_eq_nil_of_ne none))).mp meets).1
  · intro test included already meets
    exact meets.append_included included already

/-- A file with the tag `a` is found by `~a`, and so it is by `~a ~b`, but not by `~b`. -/
theorem isMatch_append_alternative :
    let query : Query := [.test ⟨.included, ["a"], none⟩]
    let other : TagTest := ⟨.included, ["b"], none⟩
    let tags : List Tag := [⟨["a"], none⟩]
    other.kind = .included ∧ testsOf .included query ≠ [] ∧ isMatch query tags ∧
      isMatch (query ++ [.test other]) tags ∧ ¬isMatch [.test other] tags := by
  intro query other tags
  have matched : isMatch query tags := by decide +kernel
  have already : testsOf .included query ≠ [] := by simp [query, testsOf]
  obtain ⟨-, -, -, added⟩ := isMatch_append tags query []
  exact ⟨rfl, already, matched, added other rfl already matched, by decide +kernel⟩

end Query
end TagStore
