import TagStore.Query.Marks

/-!
# Queries from a command line

A shell takes the quotes off its arguments, so an argument such as `~name:bree bree` is given them
back before the arguments are joined by spaces into one query.
-/

namespace TagStore
namespace Query

/-- A text that was to be a query and is none. -/
structure Invalid where
  /-- The whole text. -/
  text : String
  /-- What is wrong with it. -/
  cause : ParseError
  deriving DecidableEq, Repr

/-- What is said of an invalid query: the text and every error down to the innermost. -/
def Invalid.message (invalid : Invalid) : String :=
  ": ".intercalate (("invalid query: " ++ invalid.text) :: invalid.cause.chain.map (·.message))

/-- Put quotes around the value of an argument if it has a blank and does not begin with a quote. -/
def requote (argument : String) : String :=
  match Text.cut ':' argument with
  | some (path, value) =>
    if value.toList.any Text.isBlank && value.toList.head? ≠ some '"' then
      path ++ ":\"" ++ value ++ "\""
    else argument
  | none => argument

/-- Read a query that is given as one argument. -/
def ofArgument (text : String) : Except Invalid Query :=
  (parse text).mapError (Invalid.mk text)

/-- Read a query that is given as arguments with one expression each. -/
def ofArguments (arguments : List String) : Except Invalid Query :=
  ofArgument (" ".intercalate (arguments.map requote))

end Query
end TagStore
