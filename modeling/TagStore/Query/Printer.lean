import TagStore.Query.Basic

/-!
# The written form of a query

Expressions are set apart by one space.  A value is written bare if it is a word and between double
quotes otherwise.
-/

namespace TagStore
namespace Query

/-- The written form of a value. -/
def valueText (value : String) : String :=
  if value ≠ "" && value.toList.all Text.isWordChar then value else "\"" ++ value ++ "\""

/-- The written form of a test. -/
def TagTest.toText (test : TagTest) : String :=
  let bare := String.singleton test.kind.sign ++ ".".intercalate test.path
  match test.value with
  | some value => bare ++ ":" ++ valueText value
  | none => bare

mutual

/-- The written form of an expression. -/
def Expr.toText : Expr → String
  | .test single => single.toText
  | .group exprs => "[" ++ " ".intercalate (Expr.texts exprs) ++ "]"

/-- The written forms of the members of a list. -/
def Expr.texts : List Expr → List String
  | [] => []
  | expr :: rest => expr.toText :: Expr.texts rest

end

theorem Expr.texts_eq_map (exprs : List Expr) : Expr.texts exprs = exprs.map Expr.toText := by
  induction exprs with
  | nil => rfl
  | cons expr rest ih => simp [Expr.texts, ih]

/-- The written form of a query. -/
def toText (query : Query) : String := " ".intercalate (Expr.texts query)

end Query
end TagStore
