import StyleTree.Enclosure
import StyleTree.Event
import StyleTree.Text

/-!
# Assemblers

Style sheets are read into blocks of more than one kind. An assembler is what a kind of block has
to offer for that: where to start, and how to take in comments, declarations and nested blocks.
-/

namespace StyleTree

/-- What one semicolon ends. -/
inductive Declaration where
  /-- A property with its value. -/
  | property (name value : String)
  /-- A line without a property, kept with its semicolon. -/
  | statement (text : String)
deriving DecidableEq, Repr

namespace Declaration

/-- The trimmed name and value around the first exposed colon. There are none without such a
colon, or if nothing but blanks is before it. -/
def nameAndValue? (text : List Char) : Option (List Char × List Char) :=
  match Enclosure.cut? ':' {} text with
  | none => none
  | some (before, after) =>
    if Text.trim before = [] then none else some (Text.trim before, Text.trim after)

/-- The declaration that a text makes: a property where it has a name and a value, otherwise
a statement. -/
def ofText (text : String) : Declaration :=
  match nameAndValue? text.toList with
  | some (name, value) => .property (String.ofList name) (String.ofList value)
  | none => .statement (text.push ';')

end Declaration

/-- A block after another was nested in it, with what was noticed. -/
structure Nested (β : Type) where
  block : β
  events : List Event
  /-- How many times a key other than the selector had to be found. -/
  renamings : Nat

/-- How blocks of type `β` are put together from the parts of a style sheet. -/
structure Assembler (β : Type) where
  /-- The block before anything was read. -/
  empty : β
  /-- A block with one more comment. -/
  addComment : β → String → β
  /-- A block with one more declaration. -/
  addDeclaration : β → Declaration → β
  /-- A selector and the complete block that goes under it, in the block around them. -/
  nest : String → β → β → Nested β
  /-- A block after all of its content was read. -/
  complete : β → β

end StyleTree
