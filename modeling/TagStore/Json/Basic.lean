/-!
# JSON values

A JSON value as it is written and read: numbers keep their spelling, and the members of an object
keep their order and may repeat a name.
-/

namespace TagStore

/-- A JSON value. -/
inductive Json where
  /-- The word `null`. -/
  | null
  /-- One of the words `true` and `false`. -/
  | bool (value : Bool)
  /-- A number, as it is spelled. -/
  | number (spelling : String)
  /-- A text. -/
  | text (value : String)
  /-- A list of values. -/
  | array (items : List Json)
  /-- A list of named values. -/
  | object (members : List (String × Json))
  deriving Inhabited

end TagStore
