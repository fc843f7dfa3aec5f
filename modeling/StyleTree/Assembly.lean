import StyleTree.Assembler
import StyleTree.Event
import StyleTree.Token.Lexer

/-!
# Assembly

The tokens of a style sheet are put together on a stack of open blocks. An opening brace pushes a
block and a closing brace nests one; blocks that are still open at the end are closed there.
-/

namespace StyleTree

/-- The blocks that are open at a point of a style sheet. -/
structure Assembly (β : Type) where
  /-- The content so far of the innermost block. -/
  current : β
  /-- The blocks around it, from the inside out, each with the selector that was opened in
  it. -/
  enclosing : List (String × β) := []
  /-- How many times a key other than the selector had to be found. -/
  renamings : Nat := 0

variable {β : Type}

namespace Assembly

/-- How many blocks are open. -/
def depth (assembly : Assembly β) : Nat :=
  assembly.enclosing.length

/-- The open blocks after the innermost one is complete. At the outermost level there is none to
close. -/
def close (assembler : Assembler β) (assembly : Assembly β) : Option (Assembly β × List Event) :=
  match assembly.enclosing with
  | [] => none
  | (selector, outer) :: rest =>
    let nested := assembler.nest selector (assembler.complete assembly.current) outer
    some (⟨nested.block, rest, assembly.renamings + nested.renamings⟩, nested.events)

/-- The open blocks after one more token, and what its place among them gives to notice. An
opening brace beyond the limit fails; a closing brace with nothing to close is passed over. -/
def step (assembler : Assembler β) (limit : UInt64) (assembly : Assembly β) (lexeme : Lexeme) :
    Except Error (Assembly β) × List Event :=
  match lexeme.token with
  | .comment text =>
    (.ok { assembly with current := assembler.addComment assembly.current text }, [])
  | .declaration text =>
    let declaration := Declaration.ofText text
    (.ok { assembly with current := assembler.addDeclaration assembly.current declaration }, [])
  | .opening selector =>
    if assembly.depth + 1 > limit.toNat then
      (.error (.tooDeep limit), [.tooDeep limit lexeme.stop])
    else
      (.ok
        { assembly with
          current := assembler.empty
          enclosing := (selector, assembly.current) :: assembly.enclosing }, [])
  | .closing =>
    match assembly.close assembler with
    | none => (.ok assembly, [.unmatchedBrace lexeme.stop])
    | some (closed, events) => (.ok closed, events)

/-- The open blocks after several tokens, or the first failure, with all that was noticed up to
there. -/
def run (assembler : Assembler β) (limit : UInt64) :
    Assembly β → List Lexeme → Except Error (Assembly β) × List Event
  | assembly, [] => (.ok assembly, [])
  | assembly, lexeme :: rest =>
    match step assembler limit assembly lexeme with
    | (.error error, events) => (.error error, lexeme.events ++ events)
    | (.ok next, events) =>
      let (result, others) := run assembler limit next rest
      (result, lexeme.events ++ events ++ others)

/-- The outermost block after every open block in it was closed, from the inside out, with the
number of renamings. -/
def finish (assembler : Assembler β) :
    β → List (String × β) → Nat → (β × Nat) × List Event
  | current, [], renamings => ((assembler.complete current, renamings), [])
  | current, (selector, outer) :: rest, renamings =>
    let nested := assembler.nest selector (assembler.complete current) outer
    let (result, events) := finish assembler nested.block rest (renamings + nested.renamings)
    (result, nested.events ++ events)

end Assembly

/-- The block that a style sheet makes, with the number of renamings, and what was noticed, in
order. -/
def assemble (assembler : Assembler β) (limit : UInt64) (lexing : Lexing) :
    Except Error (β × Nat) × List Event :=
  match Assembly.run assembler limit { current := assembler.empty } lexing.lexemes with
  | (.error error, events) => (.error error, events)
  | (.ok assembly, events) =>
    let (result, others) :=
      Assembly.finish assembler assembly.current assembly.enclosing assembly.renamings
    (.ok result, events ++ lexing.trailing ++ others)

end StyleTree
