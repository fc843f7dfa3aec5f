import StyleTree.Json.Numeral

namespace StyleTree

/-- A JSON value. -/
inductive Json where
  | null
  | bool (value : Bool)
  | number (numeral : Json.Numeral)
  | string (text : String)
  | array (items : List Json)
  | object (members : List (String × Json))
deriving Repr

namespace Json

/-- The text of a string. -/
def string? : Json → Option String
  | .string text => some text
  | _ => none

/-- The texts of an array that holds nothing but strings. -/
def strings? : Json → Option (List String)
  | .array items => items.mapM string?
  | _ => none

/-- The members of an object. -/
def members? : Json → Option (List (String × Json))
  | .object members => some members
  | _ => none

/-! ### Reading -/

/-- What is wrong with a JSON text. -/
inductive Fault where
  /-- The text ends where more of it is needed. -/
  | cutShort
  /-- The text goes on in a way that no JSON text does, or beyond a limit of the reader. -/
  | malformed
  /-- The text has a value that its reader has no use for. -/
  | unsuitable
deriving DecidableEq, Repr

/-- What a value is read for. -/
inductive Use where
  /-- The value is wanted: its strings have to be texts and its numbers finite, and it may not
  nest too deeply. -/
  | kept
  /-- The value is passed over: it only has to be well-formed. -/
  | skipped
deriving DecidableEq, Repr

end Json

end StyleTree
