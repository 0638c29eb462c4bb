import TagStore.Text.Chars

/-!
# Sources

The source of a file is a local path or names one after the scheme of local files.  Anything else
with a scheme is not supported.
-/

namespace TagStore
namespace Source

/-- A source that names no local file. -/
structure Unsupported where
  /-- The source that was given. -/
  source : String
  deriving DecidableEq, Repr

/-- What is said of an unsupported source. -/
def Unsupported.message (error : Unsupported) : String :=
  "unsupported source " ++ error.source ++ ": only local paths and file:// URIs may be used"

/-- The scheme of local files. -/
def fileScheme : List Char := "file://".toList

/-- What sets a scheme off from the rest of a source. -/
def schemeMark : List Char := "://".toList

/-- The path that a source names. -/
def localPath (source : String) : Except Unsupported String :=
  if fileScheme.isPrefixOf source.toList then
    .ok (String.ofList (source.toList.drop fileScheme.length))
  else if Text.occursIn schemeMark source.toList then .error ⟨source⟩
  else .ok source

end Source
end TagStore
