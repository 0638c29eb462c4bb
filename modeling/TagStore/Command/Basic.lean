import TagStore.Catalog.Basic

/-!
# Commands

What the database can be told to do.  All commands but the search edit the catalog, or only bring
the output directory in line with it, and report the changes to the output directory.
-/

namespace TagStore

/-- How an editing command goes about its work. -/
structure EditMode where
  /-- Report the changes as JSON. -/
  json : Bool := false
  /-- Change nothing; sources are read all the same. -/
  dry : Bool := false
  deriving DecidableEq, Repr

/-- One command. -/
inductive Command where
  /-- Add a file with the tags that the edits add. -/
  | add (mode : EditMode) (source : String) (edits : List Tag.Edit)
  /-- Remove the files that a query matches. -/
  | remove (mode : EditMode) (query : List String)
  /-- Edit the tags of the files that a query matches. -/
  | tag (mode : EditMode) (query : String) (edits : List Tag.Edit)
  /-- List the files that a query matches. -/
  | search (query : List String)
  /-- Bring the output directory in line with the catalog. -/
  | sync (mode : EditMode)
  deriving DecidableEq

end TagStore
