import TagStore.Disk.Basic
import TagStore.Json.Reader
import TagStore.Query.Arguments
import TagStore.Source

/-!
# Failures of commands
-/

namespace TagStore

/-- Why a command fails. -/
inductive Failure where
  /-- The disk refuses an operation. -/
  | disk (error : DiskError)
  /-- A catalog or lockfile cannot be read. -/
  | json (flaw : Json.Flaw)
  /-- A query is invalid. -/
  | query (invalid : Query.Invalid)
  /-- A source is of an unsupported kind. -/
  | unsupportedSource (error : Source.Unsupported)
  /-- A source cannot be read. -/
  | unreadableSource (source : String) (error : DiskError)
  deriving DecidableEq

/-- What is said of a failure; a flaw in JSON has no text of its own here. -/
def Failure.message : Failure → String
  | disk error => error.message
  | json .malformed => "malformed JSON"
  | json .unfinished => "unfinished JSON"
  | json .unsuitable => "unsuitable JSON"
  | query invalid => invalid.message
  | unsupportedSource error => error.message
  | unreadableSource source error => "unable to read " ++ source ++ ": " ++ error.message

end TagStore
