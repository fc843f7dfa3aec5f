import StyleTree.Json

namespace StyleTree.Json

/-- How the parts of a value are set out. -/
inductive Layout where
  /-- Without any space. -/
  | compact
  /-- With one item a line. -/
  | indented
deriving DecidableEq, Repr

/-- What stands before an item, or before the end of its container, at a level of nesting. -/
def Layout.lineBreak (level : Nat) : Layout → List Char
  | .compact => []
  | .indented => '\n' :: List.replicate (2 * level) ' '

/-- What stands between a key and its value. -/
def Layout.colon : Layout → List Char
  | .compact => [':']
  | .indented => [':', ' ']

/-- How one character is written in a string. -/
def escape (c : Char) : List Char :=
  if c = '"' then ['\\', '"']
  else if c = '\\' then ['\\', '\\']
  else if c = '\x08' then ['\\', 'b']
  else if c = '\x0c' then ['\\', 'f']
  else if c = '\n' then ['\\', 'n']
  else if c = '\r' then ['\\', 'r']
  else if c = '\t' then ['\\', 't']
  else if c.toNat < 0x20 then
    ['\\', 'u', '0', '0', Nat.digitChar (c.toNat / 16), Nat.digitChar (c.toNat % 16)]
  else [c]

/-- A string with its quotes. -/
def stringChars (text : String) : List Char :=
  '"' :: (text.toList.flatMap escape ++ ['"'])

/-- The comma after an item, if others follow. -/
def comma {α : Type} (rest : List α) : List Char :=
  if rest.isEmpty then [] else [',']

mutual

/-- The text of a value at a level of nesting. -/
def chars (layout : Layout) (level : Nat) : Json → List Char
  | .null => ['n', 'u', 'l', 'l']
  | .bool true => ['t', 'r', 'u', 'e']
  | .bool false => ['f', 'a', 'l', 's', 'e']
  | .number numeral => numeral.chars
  | .string text => stringChars text
  | .array [] => ['[', ']']
  | .array (item :: rest) =>
    '[' :: (itemChars layout (level + 1) (item :: rest) ++ layout.lineBreak level ++ [']'])
  | .object [] => ['{', '}']
  | .object (member :: rest) =>
    '{' :: (memberChars layout (level + 1) (member :: rest) ++ layout.lineBreak level ++ ['}'])

/-- The items of an array, with what stands before and between them. -/
def itemChars (layout : Layout) (level : Nat) : List Json → List Char
  | [] => []
  | item :: rest =>
    layout.lineBreak level ++ chars layout level item ++ comma rest ++ itemChars layout level rest

/-- The members of an object, with what stands before and between them. -/
def memberChars (layout : Layout) (level : Nat) : List (String × Json) → List Char
  | [] => []
  | (key, value) :: rest =>
    layout.lineBreak level ++ stringChars key ++ layout.colon ++ chars layout level value ++
      comma rest ++ memberChars layout level rest

end

/-- The text of a value. -/
def print (value : Json) (layout : Layout := .compact) : String :=
  String.ofList (value.chars layout 0)

end StyleTree.Json
