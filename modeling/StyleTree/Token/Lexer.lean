import StyleTree.Comment
import StyleTree.Event
import StyleTree.Text
import StyleTree.Token.Run

/-!
# Reading tokens

Before each token lies a filler of blanks and of opening braces and semicolons that have nothing
before them; the marks among the filler are reported. What follows the last token is a filler and a
run without an end.
-/

namespace StyleTree

/-- A part of a style sheet that has a meaning of its own. -/
inductive Token where
  /-- A comment with its delimiters. -/
  | comment (text : String)
  /-- The text before an opening brace. -/
  | opening (selector : String)
  /-- A closing brace. -/
  | closing
  /-- The text before a semicolon, or before the closing brace that ends its block. -/
  | declaration (text : String)
deriving DecidableEq, Repr

/-- A place in a style sheet: its offset in bytes, and the text from there on. -/
structure Cursor where
  offset : Nat
  rest : List Char
deriving DecidableEq, Repr

/-- What reading one token gives. -/
structure Advance where
  /-- What was noticed on the way, in order. -/
  events : List Event
  /-- The token, unless the style sheet has no more of them. -/
  token? : Option Token
  /-- The place after the token, or the end of the style sheet. -/
  cursor : Cursor
deriving DecidableEq, Repr

/-- A token in its place. -/
structure Lexeme where
  token : Token
  /-- The offset after the token. -/
  stop : Nat
  /-- What was noticed between the token before and this one. -/
  events : List Event
deriving DecidableEq, Repr

/-- The tokens of a style sheet, and what was noticed after the last of them. -/
structure Lexing where
  lexemes : List Lexeme
  trailing : List Event
  /-- The place where no more tokens follow. -/
  finish : Cursor
deriving DecidableEq, Repr

/-- Whether a character means nothing before a token. -/
def isFiller (c : Char) : Bool :=
  Text.isBlank c || c == '{' || c == ';'

/-- The reports on the marks of a filler that starts at `offset`. -/
def strayMarks : Nat → List Char → List Event
  | _, [] => []
  | offset, c :: rest =>
    if Text.isBlank c then strayMarks (offset + c.utf8Size) rest
    else .strayMark c offset :: strayMarks (offset + c.utf8Size) rest

namespace Cursor

/-- The start of a style sheet. -/
def start (css : String) : Cursor :=
  ⟨0, css.toList⟩

/-- Whether nothing is left to read. -/
def isAtEnd (cursor : Cursor) : Bool :=
  cursor.rest.isEmpty

/-- The token at the start of `body`, which comes after a comment opening at `start`. A comment
without an end takes all that is left. -/
def nextComment (start : Nat) (body : List Char) (noticed : List Event) : Advance :=
  match Comment.close? body with
  | some (inside, after) =>
    { events := noticed
      token? := some (.comment (String.ofList (['/', '*'] ++ inside ++ ['*', '/'])))
      cursor := ⟨start + Text.byteLength inside + 4, after⟩ }
  | none =>
    { events := noticed ++ [.unclosedComment start]
      token? := some (.comment (String.ofList ('/' :: '*' :: body)))
      cursor := ⟨start + Text.byteLength body + 2, []⟩ }

/-- The token that the run at the start of `text` makes. A closing brace stays in place, since
it is a token too. Text that nothing ends is no token. -/
def nextRun (start : Nat) (text : List Char) (noticed : List Event) : Advance :=
  match Scan.run .start text with
  | none =>
    { events := noticed ++ [.unfinishedText start (String.ofList (Text.trim text))]
      token? := none
      cursor := ⟨start + Text.byteLength text, []⟩ }
  | some (run, .opening, after) =>
    { events := noticed
      token? := some (.opening (String.ofList (Text.trim run)))
      cursor := ⟨start + Text.byteLength run + 1, after⟩ }
  | some (run, .semicolon, after) =>
    { events := noticed
      token? := some (.declaration (String.ofList (Text.trim run)))
      cursor := ⟨start + Text.byteLength run + 1, after⟩ }
  | some (run, .closing, after) =>
    { events := noticed
      token? := some (.declaration (String.ofList (Text.trim run)))
      cursor := ⟨start + Text.byteLength run, '}' :: after⟩ }

/-- The token after a place. -/
def next (cursor : Cursor) : Advance :=
  let filler := cursor.rest.takeWhile isFiller
  let start := cursor.offset + Text.byteLength filler
  let noticed := strayMarks cursor.offset filler
  match cursor.rest.dropWhile isFiller with
  | [] => ⟨noticed, none, ⟨start, []⟩⟩
  | '}' :: after => ⟨noticed, some .closing, ⟨start + 1, after⟩⟩
  | '/' :: '*' :: body => nextComment start body noticed
  | text => nextRun start text noticed

theorem length_nextComment_lt (start : Nat) (body : List Char) (noticed : List Event) :
    (nextComment start body noticed).cursor.rest.length < body.length + 2 := by
  unfold nextComment
  split
  · rename_i h
    have := Comment.length_lt_of_close? h
    simp only
    omega
  · simp

/-- A token that a run makes takes at least one character, if the run does not start with one
that would end it. -/
theorem length_nextRun_lt {start : Nat} {c : Char} {rest : List Char} {noticed : List Event}
    (hc : Scan.start.ending? c = none)
    (h : (nextRun start (c :: rest) noticed).token?.isSome = true) :
    (nextRun start (c :: rest) noticed).cursor.rest.length < (c :: rest).length := by
  unfold nextRun at h ⊢
  split at h
  · simp at h
  · rename_i hrun
    have := Scan.length_of_run hrun
    simp only
    omega
  · rename_i hrun
    have := Scan.length_of_run hrun
    simp only
    omega
  · rename_i run after hrun
    have hlength := Scan.length_of_run hrun
    have hpos := List.length_pos_iff.2 (Scan.ne_nil_of_run hc hrun)
    simp only [List.length_cons] at hlength ⊢
    omega

/-- Reading a token leaves less text than there was. -/
theorem length_next_lt {cursor : Cursor} (h : cursor.next.token?.isSome = true) :
    cursor.next.cursor.rest.length < cursor.rest.length := by
  -- The filler takes nothing back, and what follows it does not start with more filler.
  have hdrop : (cursor.rest.dropWhile isFiller).length ≤ cursor.rest.length :=
    (List.dropWhile_suffix _).length_le
  have hfiller : ∀ c rest, cursor.rest.dropWhile isFiller = c :: rest → isFiller c = false := by
    intro c rest heq
    have hhead := List.head?_dropWhile_not isFiller cursor.rest
    simpa [heq] using hhead
  unfold next at h ⊢
  simp only at h ⊢
  split at h
  · simp at h
  · rename_i after heq
    rw [heq] at hdrop
    exact hdrop
  · rename_i body heq
    rw [heq] at hdrop
    exact Nat.lt_of_lt_of_le (length_nextComment_lt _ _ _) hdrop
  · rename_i hnil hclosing _
    cases heq : cursor.rest.dropWhile isFiller with
    | nil => exact absurd heq hnil
    | cons c rest =>
      -- Neither a brace nor a semicolon is left for the first character of the run.
      have hc : Scan.start.ending? c = none := by
        have hplain := hfiller c rest heq
        have hbrace : c ≠ '}' := fun hc => hclosing rest (hc ▸ heq)
        simp only [isFiller, Bool.or_eq_false_iff, beq_eq_false_iff_ne] at hplain
        simp [Scan.ending?, Scan.start, Scan.enclosure?, hplain, hbrace]
      rw [heq] at h hdrop
      exact Nat.lt_of_lt_of_le (length_nextRun_lt hc h) hdrop

/-- All tokens after a place, in order. -/
def lex (cursor : Cursor) : Lexing :=
  match _ : cursor.next.token? with
  | none => ⟨[], cursor.next.events, cursor.next.cursor⟩
  | some token =>
    let lexing := cursor.next.cursor.lex
    { lexing with
      lexemes := ⟨token, cursor.next.cursor.offset, cursor.next.events⟩ :: lexing.lexemes }
termination_by cursor.rest.length
decreasing_by exact length_next_lt (Option.isSome_of_eq_some ‹_›)

end Cursor

/-- A style sheet read to its end. -/
def Lexing.ofText (css : String) : Lexing :=
  (Cursor.start css).lex

/-- The tokens of a style sheet. -/
def tokens (css : String) : List Token :=
  (Lexing.ofText css).lexemes.map Lexeme.token

end StyleTree
