import StyleTree.Json
import StyleTree.Text.Quoted

/-!
# Events and errors

What was passed over or changed is reported apart from the result, in the order in which it
happens. Offsets count bytes from the start of the text that is read.
-/

namespace StyleTree

/-- How much attention an event deserves. -/
inductive Level where
  | trace
  | debug
  | warn
deriving DecidableEq, Repr

/-- The name of a level in a log. -/
def Level.label : Level → String
  | .trace => "TRACE"
  | .debug => "DEBUG"
  | .warn => "WARN"

/-- Something worth knowing about how a style sheet was read. -/
inductive Event where
  /-- An opening brace or a semicolon with nothing before it was passed over. -/
  | strayMark (mark : Char) (offset : Nat)
  /-- A comment that starts at `offset` has no end. -/
  | unclosedComment (offset : Nat)
  /-- The text from `offset` on ends before anything tells what it is. -/
  | unfinishedText (offset : Nat) (text : String)
  /-- A closing brace that ends at `offset` was passed over, since no block is open. -/
  | unmatchedBrace (offset : Nat)
  /-- The opening brace that ends at `offset` opens one block too many. -/
  | tooDeep (limit : UInt64) (offset : Nat)
  /-- A block was dropped, since its list has no selector in it. -/
  | noSelector (selector : String)
  /-- A block was stored under another key than its selector, which is taken. -/
  | renamed (selector key : String)
  /-- A style sheet of so many bytes was read, and so many blocks were renamed in it. -/
  | finished (bytes renamings : Nat)
deriving DecidableEq, Repr

namespace Event

/-- How much attention an event deserves: a refusal most, single marks and keys least. -/
def level : Event → Level
  | .strayMark .. => .trace
  | .renamed .. => .trace
  | .tooDeep .. => .warn
  | .unclosedComment .. => .debug
  | .unfinishedText .. => .debug
  | .unmatchedBrace .. => .debug
  | .noSelector .. => .debug
  | .finished .. => .debug

/-- The wording of an event. -/
def message : Event → String
  | .strayMark mark offset =>
    "Skipping stray '" ++ String.singleton mark ++ "' at byte " ++ toString offset
  | .unclosedComment offset =>
    "Unterminated comment at byte " ++ toString offset ++ " runs to end of input"
  | .unfinishedText offset text =>
    "Ignoring unterminated text at byte " ++ toString offset ++ ": " ++ Text.quoted text
  | .unmatchedBrace offset => "Skipping unmatched '\x7d' at byte " ++ toString offset
  | .tooDeep limit offset =>
    "CSS nesting exceeds " ++ toString limit.toNat ++ " levels at byte " ++ toString offset
  | .noSelector selector =>
    "Dropping block with empty selector list " ++ Text.quoted selector
  | .renamed selector key =>
    "Duplicate selector " ++ Text.quoted selector ++ " stored as " ++ Text.quoted key
  | .finished bytes renamings =>
    "Parsed " ++ toString bytes ++ " bytes of CSS (" ++ toString renamings
      ++ " duplicate selectors renamed)"

end Event

/-! ### Errors -/

/-- A place in a JSON value where a block should be. -/
structure Misfit where
  /-- The keys of nested blocks that lead to the place, outermost first. -/
  keys : List String
  /-- Whether the nested blocks at that place are at fault, rather than the block itself. -/
  inChildren : Bool
deriving DecidableEq, Repr

/-- The place as a path from the whole value. -/
def Misfit.path (misfit : Misfit) : String :=
  "$" ++ String.join (misfit.keys.map fun key => ".children[" ++ Text.quoted key ++ "]") ++
    if misfit.inChildren then ".children" else ""

/-- Why something failed. -/
inductive Error where
  /-- More blocks than the limit were open at a time. -/
  | tooDeep (limit : UInt64)
  /-- A JSON value is no block. -/
  | notABlock (place : Misfit)
  /-- A JSON text is at fault. -/
  | json (fault : Json.Fault)
deriving DecidableEq, Repr

/-- The wording of an error. A fault of a JSON text has none of its own. -/
def Error.message? : Error → Option String
  | .tooDeep limit =>
    some ("Stylesheet nesting exceeds the maximum depth of " ++ toString limit.toNat)
  | .notABlock place =>
    some ("JSON value at '" ++ place.path ++
      "' is not a node: expected an object with 'attributes' or 'children'")
  | .json _ => none

end StyleTree
