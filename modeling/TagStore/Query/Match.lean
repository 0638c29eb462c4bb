import TagStore.Query.Basic

/-!
# Matching tags against a query

Evaluating a query on the tags of a file gives one result for the query and one for each group in
it.  A query matches if each kind of test in it and each of its groups is satisfied.  A group is
satisfied as soon as one of its kinds of test or one of its own groups is, so an empty query matches
everything and an empty group nothing.
-/

namespace TagStore
namespace Query

/-- How the tests of one list of expressions came out; `none` where it has no test of a kind. -/
structure Verdict where
  /-- Whether all required tests match. -/
  required : Option Bool := none
  /-- Whether an included test matches. -/
  included : Option Bool := none
  /-- Whether no excluded test matches. -/
  excluded : Option Bool := none
  /-- The results of the groups, in order. -/
  groups : List Verdict := []
  deriving Inhabited

namespace Verdict

mutual

/-- Whether a result satisfies a group. -/
def satisfies : Verdict → Bool
  | ⟨required, included, excluded, groups⟩ =>
    [required, included, excluded].contains (some true) || anySatisfies groups

/-- Whether one of several results satisfies a group. -/
def anySatisfies : List Verdict → Bool
  | [] => false
  | result :: rest => result.satisfies || anySatisfies rest

end

theorem anySatisfies_eq_any (results : List Verdict) :
    anySatisfies results = results.any satisfies := by
  induction results with
  | nil => rfl
  | cons result rest ih => simp [anySatisfies, ih]

/-- Whether a result is that of a matching query. -/
def isMatch (result : Verdict) : Bool :=
  [result.required, result.included, result.excluded].all (· ≠ some false) &&
    result.groups.all satisfies

/-- Count in a test that stands before those already counted. -/
def addTest (kind : Kind) (found : Bool) (result : Verdict) : Verdict :=
  match kind with
  | .required => { result with required := some (found && result.required.getD true) }
  | .included => { result with included := some (found || result.included.getD false) }
  | .excluded => { result with excluded := some (!found && result.excluded.getD true) }

/-- Count in a group that stands before those already counted. -/
def addGroup (result group : Verdict) : Verdict :=
  { result with groups := group :: result.groups }

end Verdict

mutual

/-- The result of a list of expressions for the tags of a file. -/
def evaluate (tags : List Tag) : List Expr → Verdict
  | [] => {}
  | expr :: rest => expr.countIn tags (evaluate tags rest)

/-- Count in an expression that stands before those already counted. -/
def Expr.countIn (tags : List Tag) : Expr → Verdict → Verdict
  | .test test, result => result.addTest test.kind (tags.any test.finds)
  | .group exprs, result => result.addGroup (evaluate tags exprs)

end

/-- Whether a query matches the tags of a file. -/
def isMatch (query : Query) (tags : List Tag) : Bool := (evaluate tags query).isMatch

end Query
end TagStore
