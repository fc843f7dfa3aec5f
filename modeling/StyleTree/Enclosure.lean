/-!
# Enclosures

Colons, commas and semicolons divide a text only where they stand outside of strings, brackets and
escapes. Round and square brackets share one count, and a closing bracket without an opening one
changes nothing.
-/

namespace StyleTree

/-- What is open at a point of a text. The default is the start of a text, where nothing is. -/
structure Enclosure where
  /-- The number of brackets that wait for their closing partner. -/
  depth : Nat := 0
  /-- The quote that opened the string in which the point lies, if it lies in one. -/
  quote : Option Char := none
  /-- Whether a backslash takes away the meaning of the character to come. -/
  escaped : Bool := false
deriving DecidableEq, Repr

namespace Enclosure

/-- Whether a character opens and closes strings. -/
def isQuote (c : Char) : Bool :=
  c == '"' || c == '\''

/-- Whether a character opens a bracket. -/
def isOpener (c : Char) : Bool :=
  c == '(' || c == '['

/-- Whether a character closes a bracket. -/
def isCloser (c : Char) : Bool :=
  c == ')' || c == ']'

/-- Whether the point lies in a string. -/
def inString (e : Enclosure) : Bool :=
  e.quote.isSome

/-- The enclosure after the character `c`. An escape covers one character, whatever it is; a
string ends at the quote that opened it. -/
def next (e : Enclosure) (c : Char) : Enclosure :=
  if e.escaped then { e with escaped := false }
  else if c = '\\' then { e with escaped := true }
  else
    match e.quote with
    | some q => if c = q then { e with quote := none } else e
    | none =>
      if isQuote c then { e with quote := some c }
      else if isOpener c then { e with depth := e.depth + 1 }
      else if isCloser c then { e with depth := e.depth - 1 }
      else e

/-- Whether the character `c`, read here, stands outside of every string, bracket and escape.
The characters that open or close one never do. -/
def exposes (e : Enclosure) (c : Char) : Bool :=
  !e.escaped && e.quote.isNone && e.depth == 0 &&
    !(c == '\\' || isQuote c || isOpener c || isCloser c)

/-- The text before and after the first exposed occurrence of `separator`, if there is one. -/
def cut? (separator : Char) : Enclosure → List Char → Option (List Char × List Char)
  | _, [] => none
  | e, c :: rest =>
    if c = separator ∧ e.exposes c then some ([], rest)
    else (cut? separator (e.next c) rest).map fun (before, after) => (c :: before, after)

/-- The texts between the exposed occurrences of `separator`, in order. There is always one
more of them than there are such occurrences. -/
def segments (separator : Char) : Enclosure → List Char → List (List Char)
  | _, [] => [[]]
  | e, c :: rest =>
    if c = separator ∧ e.exposes c then [] :: segments separator (e.next c) rest
    else (segments separator (e.next c) rest).modifyHead (c :: ·)

/-- A character that a separator can be leaves the enclosure as it is where it is exposed. -/
theorem next_of_exposes {e : Enclosure} {c : Char} (h : e.exposes c = true) : e.next c = e := by
  simp only [exposes, Bool.and_eq_true, Bool.not_eq_true', Bool.or_eq_false_iff,
    Option.isNone_iff_eq_none, beq_iff_eq, beq_eq_false_iff_ne] at h
  obtain ⟨⟨⟨hescaped, hquote⟩, _⟩, ⟨⟨hback, hstring⟩, hopen⟩, hclose⟩ := h
  simp [next, hescaped, hback, hquote, hstring, hopen, hclose]

/-- A cut loses nothing but the separator. -/
theorem eq_append_of_cut? {separator : Char} {e : Enclosure} {text before after : List Char}
    (h : cut? separator e text = some (before, after)) :
    text = before ++ separator :: after := by
  induction text generalizing e before with
  | nil => simp [cut?] at h
  | cons c rest ih =>
    rw [cut?] at h
    split at h
    · rename_i hc
      simp_all
    · obtain ⟨⟨b, a⟩, hcut, heq⟩ := Option.map_eq_some_iff.1 h
      obtain ⟨rfl, rfl⟩ := Prod.mk.injEq .. ▸ heq
      simp [ih hcut]

theorem segments_ne_nil (separator : Char) (e : Enclosure) (text : List Char) :
    segments separator e text ≠ [] := by
  induction text generalizing e with
  | nil => simp [segments]
  | cons c rest ih =>
    rw [segments]
    split
    · simp
    · simpa [List.modifyHead_eq_nil_iff] using ih (e.next c)

end Enclosure

end StyleTree
