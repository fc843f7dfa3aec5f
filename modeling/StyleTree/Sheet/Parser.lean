import StyleTree.Assembly
import StyleTree.Block.Parser
import StyleTree.Css
import StyleTree.Settings.Json

/-!
# Style sheets

Every text is a style sheet: what cannot be understood is passed over. Reading fails only where
blocks nest beyond the limit of the settings.
-/

namespace StyleTree

/-- The content of a style sheet. -/
inductive Sheet where
  /-- Content by selectors and names. -/
  | keyed (block : Block)
  /-- Content in the order of the style sheet. -/
  | listed (listing : Listing)
deriving DecidableEq, Repr

namespace Sheet

/-- The style sheet as text, or as part of one at a level of nesting. With `breaks`, blank lines
stand between its outermost blocks. -/
def css (sheet : Sheet) (depth : Nat := 0) (breaks : Bool := false) : String :=
  match sheet with
  | .keyed block => block.css depth breaks
  | .listed listing => listing.css depth breaks

/-- The style sheet as a JSON value. -/
def toJson : Sheet → Json
  | .keyed block => block.toJson
  | .listed listing => listing.toJson

/-- Whether two style sheets are of one kind and hold the same. The order of keys does not count
in keyed blocks. -/
def same : Sheet → Sheet → Bool
  | .keyed block, .keyed other => block.same other
  | .listed listing, .listed other => listing == other
  | _, _ => false

end Sheet

/-- The text that is read: without comments, if the settings remove them. -/
def Settings.source (settings : Settings) (css : String) : String :=
  if settings.stripComments then Comment.strip css else css

namespace Sheet

/-- The content of a text, with the number of renamings, and what was noticed. -/
def parseSource (settings : Settings) (source : String) :
    Except Error (Sheet × Nat) × List Event :=
  let lexing := Lexing.ofText source
  if settings.ordered then
    let (result, events) :=
      assemble (Listing.assembler settings.keepsComments) settings.maxDepth lexing
    (result.map fun (listing, renamings) => (.listed listing, renamings), events)
  else
    let (result, events) := assemble (Block.assembler settings.split) settings.maxDepth lexing
    (result.map fun (block, renamings) => (.keyed block, renamings), events)

/-- A style sheet read by settings, and what was noticed, in order. A style sheet that was read
to its end is reported too. -/
def parseLogged (settings : Settings) (css : String) : Except Error Sheet × List Event :=
  let source := settings.source css
  match parseSource settings source with
  | (.error error, events) => (.error error, events)
  | (.ok (sheet, renamings), events) =>
    (.ok sheet, events ++ [.finished source.utf8ByteSize renamings])

/-- A style sheet read by settings. -/
def parse (settings : Settings) (css : String) : Except Error Sheet :=
  (parseLogged settings css).1

end Sheet

/-- A style sheet read into a keyed block by the usual settings. -/
def Block.parse (css : String) : Except Error Block :=
  (assemble (Block.assembler false) ({} : Settings).maxDepth (Lexing.ofText css)).1.map Prod.fst

end StyleTree
