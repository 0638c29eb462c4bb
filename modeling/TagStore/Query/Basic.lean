import TagStore.Tag.Basic

/-!
# Queries

A query is a list of expressions.  An expression is a test of a file's tags or a group, which is a
query in brackets.  Tests come in three kinds: a file has to pass every required test, at least one
of the included tests, and has to fail every excluded test.
-/

namespace TagStore
namespace Query

/-- How a test counts for the list it stands in. -/
inductive Kind where
  /-- The test has to match. -/
  | required
  /-- One of the tests of this kind has to match. -/
  | included
  /-- The test must not match. -/
  | excluded
  deriving DecidableEq, Inhabited, Repr

namespace Kind

/-- The character that opens a test. -/
def sign : Kind → Char
  | required => '+'
  | included => '~'
  | excluded => '-'

/-- The kind with a given sign. -/
def ofSign? : Char → Option Kind
  | '+' => some required
  | '~' => some included
  | '-' => some excluded
  | _ => none

theorem ofSign?_sign (kind : Kind) : ofSign? kind.sign = some kind := by
  cases kind <;> rfl

end Kind

/-- A test for one tag. -/
structure TagTest where
  /-- How the test counts. -/
  kind : Kind
  /-- The path that a tag has to have or, if there is no value, to begin with. -/
  path : List String
  /-- The value that a tag has to have. -/
  value : Option String := none
  deriving DecidableEq, Inhabited, Repr

/-- Whether a test finds what it looks for in a tag, whatever its kind. -/
def TagTest.finds (test : TagTest) (tag : Tag) : Bool :=
  match test.value with
  | some value => tag.path = test.path && tag.value = some value
  | none => test.path.isPrefixOf tag.path

/-- A test or a group of expressions. -/
inductive Expr where
  /-- A single test. -/
  | test (test : TagTest)
  /-- A list of expressions in brackets. -/
  | group (exprs : List Expr)
  deriving Inhabited

mutual

/-- Equality of two expressions is decidable. -/
def Expr.decideEq : (first second : Expr) → Decidable (first = second)
  | .test first, .test second => decidable_of_iff (first = second) (by simp)
  | .test _, .group _ => isFalse (by simp)
  | .group _, .test _ => isFalse (by simp)
  | .group first, .group second =>
    have := Expr.decideEqList first second
    decidable_of_iff (first = second) (by simp)

/-- Equality of two lists of expressions is decidable. -/
def Expr.decideEqList : (first second : List Expr) → Decidable (first = second)
  | [], [] => isTrue rfl
  | [], _ :: _ => isFalse (by simp)
  | _ :: _, [] => isFalse (by simp)
  | first :: firsts, second :: seconds =>
    have := Expr.decideEq first second
    have := Expr.decideEqList firsts seconds
    decidable_of_iff (first = second ∧ firsts = seconds) (by simp)

end

instance : DecidableEq Expr := Expr.decideEq

end Query

/-- A list of expressions, outside of any bracket. -/
abbrev Query := List Query.Expr

end TagStore
