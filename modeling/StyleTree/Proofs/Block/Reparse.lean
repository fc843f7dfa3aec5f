import StyleTree.Proofs.Block.Depth
import StyleTree.Proofs.Block.Reread
import StyleTree.Proofs.Sheet.Agreement
import StyleTree.Proofs.Token.Line
import StyleTree.Proofs.Token.Walk

/-!
# Reading, writing and reading again

A keyed block that was read comes back when it is written and read again, if each declaration had a
semicolon of its own and no escape covered a blank that was trimmed away.
-/

namespace StyleTree

/-- What ends the run that comes after a place, if there is one. -/
def Cursor.ending? (cursor : Cursor) : Option Ending :=
  (Scan.run .start (cursor.rest.dropWhile isFiller)).map fun (_, ending, _) => ending

/-- Each declaration of a style sheet is ended by a semicolon, and none by the brace that closes its
block. -/
def Terminated (css : String) : Prop :=
  ∀ n text, ((Cursor.start css).skip n).next.token? = some (.declaration text) →
    ((Cursor.start css).skip n).ending? = some .semicolon

/-- Only as many steps count as there are tokens. -/
theorem terminated_iff {css : String} :
    Terminated css ↔ ∀ n < (Cursor.start css).lex.lexemes.length,
      match ((Cursor.start css).skip n).next.token? with
      | some (.declaration _) => ((Cursor.start css).skip n).ending? = some .semicolon
      | _ => True := by
  constructor
  · intro h n _
    split
    · exact h n _ ‹_›
    · trivial
  · intro h n text htext
    have hlength := ((Cursor.start css).isSome_skip_iff n).1 (by rw [htext]; rfl)
    simpa [htext] using h n hlength

instance (css : String) : Decidable (Terminated css) :=
  have (n : Nat) : Decidable (match ((Cursor.start css).skip n).next.token? with
      | some (.declaration _) => ((Cursor.start css).skip n).ending? = some .semicolon
      | _ => True) := by
    split <;> infer_instance
  decidable_of_iff _ terminated_iff.symm

/-! ### Tokens -/

theorem Cursor.isRunText_of_declaration {cursor : Cursor} {text : String}
    (h : cursor.next.token? = some (.declaration text))
    (hending : cursor.ending? = some .semicolon) : IsRunText .semicolon text.toList := by
  have hlexes := Cursor.lexes_of_next h
  rw [Cursor.ending?] at hending
  generalize cursor.rest.dropWhile isFiller = body at hlexes hending
  generalize cursor.next.cursor.rest = rest at hlexes
  cases hlexes with
  | semicolon hstart hrun =>
    rw [String.toList_ofList]
    exact .of_run hstart hrun
  | brace hstart hrun => simp [hrun] at hending

/-- Each token is read as intended on a line of its own, if the declarations are terminated and
trimming took nothing from them that an escape covered. -/
theorem readable_part {css : String} (hterminated : Terminated css)
    (hwhole : ∀ text, .declaration text ∈ tokens css → Declaration.IsWhole text) :
    ∀ token ∈ tokens css, token.part.Readable := by
  intro token htoken
  obtain ⟨n, hn⟩ := (Cursor.mem_map_token_lex_iff (Cursor.start css)).1 htoken
  cases token with
  | comment text => trivial
  | closing => trivial
  | opening name => exact (Cursor.lexes_of_next hn).isRunText_of_opening.isHeading
  | declaration text =>
    have hrun := Cursor.isRunText_of_declaration hn (hterminated n text hn)
    rw [Token.part, Declaration.ofText]
    split
    · rename_i name value hsome
      exact hrun.isProperty (hwhole text htoken) (by simpa using hsome)
    · rename_i hnone
      exact hrun.isStatement (hwhole text htoken).atEnd hnone

namespace Block

theorem parse_eq_assembled (css : String) :
    parse css = assembled (assembler false) ({} : Settings).maxDepth (tokens css) := by
  rw [parse, assemble_fst]
  rfl

/-- A block that was read from a style sheet comes back when it is written and read again, if each
declaration of the style sheet has a semicolon of its own and trimming takes nothing that an
escape covers. -/
theorem parse_css_of_parse {css : String} {block : Block} (hparse : parse css = .ok block)
    (hterminated : Terminated css)
    (hwhole : ∀ text, .declaration text ∈ tokens css → Declaration.IsWhole text) (depth : Nat)
    (breaks : Bool) : parse (block.css depth breaks) = .ok block := by
  rw [parse_eq_assembled] at hparse ⊢
  obtain ⟨listing, hlisting, hblock, hkeyed⟩ := exists_listing_of_assembled hparse false
  have hparts : ∀ part ∈ Listing.parts listing, part.Readable :=
    forall_mem_parts_assembled hlisting (readable_part hterminated hwhole) trivial
  have hreadable : block.Everywhere (Readable false) := by
    rw [hblock]
    exact Listing.everywhere_readable_toBlock hparts
  exact assembled_css (levels_assembled hparse) hkeyed hreadable depth breaks

/-- A style sheet with an escaped blank in the middle of a value, and one at the end of a selector
that comes twice. -/
def escapedBlanks : String :=
  "@media x\x7b a : b\\ c ;\x7d a\\ \x7b @b ;\x7d a\\ \x7b \x7d"

/-- The block that it is read as. -/
def escapedBlanksBlock : Block where
  children :=
    [("a\\", ⟨[], [], ["@b;"]⟩), ("a\\ ", {}), ("@media x", ⟨[], [("a", .once "b\\ c")], []⟩)]

theorem parse_css_of_parse_escapedBlanks :
    Terminated escapedBlanks ∧ parse escapedBlanks = .ok escapedBlanksBlock ∧
      parse (escapedBlanksBlock.css 0 true) = .ok escapedBlanksBlock := by
  have htokens : tokens escapedBlanks =
      [.opening "@media x", .declaration "a : b\\ c", .closing, .opening "a\\",
        .declaration "@b", .closing, .opening "a\\", .closing] := by decide +kernel
  have hterminated : Terminated escapedBlanks := by decide +kernel
  have hparse : parse escapedBlanks = .ok escapedBlanksBlock := by decide +kernel
  have hwhole : ∀ text, .declaration text ∈ tokens escapedBlanks → Declaration.IsWhole text := by
    intro text htext
    obtain rfl | rfl : text = "a : b\\ c" ∨ text = "@b" := by simpa [htokens] using htext
    · decide +kernel
    · decide +kernel
  exact ⟨hterminated, hparse, parse_css_of_parse hparse hterminated hwhole 0 true⟩

/-- A declaration whose value ends with an escaped blank. Trimming takes the blank and leaves the
escape, which covers the semicolon when the declaration is written, so that nothing of it is
read again. -/
theorem parse_css_escapedBlank :
    Terminated "a:b\\ ;" ∧ parse "a:b\\ ;" = .ok ⟨[], [("a", .once "b\\")], []⟩ ∧
      ∀ breaks, parse ((⟨[], [("a", .once "b\\")], []⟩ : Block).css 0 breaks) = .ok {} := by
  decide +kernel

end Block

end StyleTree
