import StyleTree.Block
import StyleTree.Listing

namespace StyleTree.Css

/-- A line of its own at a level of nesting. -/
def line (depth : Nat) (text : List Char) : List Char :=
  List.replicate depth '\t' ++ text ++ ['\n']

/-- The line of a property. -/
def property (depth : Nat) (name value : String) : List Char :=
  line depth (name.toList ++ [':', ' '] ++ value.toList ++ [';'])

/-- A selector and, in braces, the lines of its block. -/
def enclosed (depth : Nat) (selector : String) (body : List Char) : List Char :=
  line depth (selector.toList ++ [' ', '{']) ++ body ++ line depth ['}']

end StyleTree.Css

namespace StyleTree.Block

mutual

/-- The lines of a block at a level of nesting. With `breaks`, blank lines stand between the
blocks nested in this one, but not in those. -/
def cssChars (depth : Nat) (breaks : Bool) : Block → List Char
  | ⟨children, properties, statements⟩ =>
    statements.flatMap (fun text => Css.line depth text.toList) ++
      properties.flatMap (fun (name, value) => value.values.flatMap (Css.property depth name)) ++
      childrenCssChars depth breaks children

/-- The lines of nested blocks with their keys. -/
def childrenCssChars (depth : Nat) (breaks : Bool) : List (String × Block) → List Char
  | [] => []
  | (key, child) :: rest =>
    Css.enclosed depth key (cssChars (depth + 1) false child) ++
      (if breaks && !rest.isEmpty then ['\n'] else []) ++
      childrenCssChars depth breaks rest

end

/-- A block as a style sheet, or as part of one at a level of nesting. -/
def css (block : Block) (depth : Nat := 0) (breaks : Bool := false) : String :=
  String.ofList (block.cssChars depth breaks)

end StyleTree.Block

namespace StyleTree.Listing

/-- The lines of a listing at a level of nesting. With `breaks`, a blank line stands before
every rule of this listing but the first; `afterRule` tells whether a rule came before. -/
def cssChars (depth : Nat) (breaks afterRule : Bool) : List Item → List Char
  | [] => []
  | .comment text :: rest =>
    Css.line depth text.toList ++ cssChars depth breaks afterRule rest
  | .statement text :: rest =>
    Css.line depth text.toList ++ cssChars depth breaks afterRule rest
  | .property name value :: rest =>
    Css.property depth name value ++ cssChars depth breaks afterRule rest
  | .rule name body :: rest =>
    (if breaks && afterRule then ['\n'] else []) ++
      Css.enclosed depth name (cssChars (depth + 1) false false body) ++
      cssChars depth breaks true rest

/-- A listing as a style sheet, or as part of one at a level of nesting. -/
def css (listing : Listing) (depth : Nat := 0) (breaks : Bool := false) : String :=
  String.ofList (cssChars depth breaks false listing)

end StyleTree.Listing
