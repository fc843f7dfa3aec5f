import StyleTree.Enclosure

/-!
# Runs of text

A run is the text of a selector or declaration up to the character that ends it. Braces end a run
wherever they stand outside of comments, even in strings; semicolons only where they are exposed.
-/

namespace StyleTree

/-- What ended a run. -/
inductive Ending where
  /-- An opening brace: the run is a selector. -/
  | opening
  /-- A closing brace: the run is a declaration, and its block ends too. -/
  | closing
  /-- A semicolon: the run is a declaration. -/
  | semicolon
deriving DecidableEq, Repr

/-- Where in a run a scanner stands. The enclosure is that of the text outside of comments. -/
inductive Scan where
  /-- Outside of comments. -/
  | text (enclosure : Enclosure)
  /-- After a slash that opens a comment if an asterisk follows. The enclosure is the one
  before the slash. -/
  | slash (enclosure : Enclosure)
  /-- In a comment. -/
  | comment (enclosure : Enclosure)
  /-- After an asterisk in a comment, which ends if a slash follows. -/
  | star (enclosure : Enclosure)
deriving DecidableEq, Repr

namespace Scan

/-- The start of a run. -/
def start : Scan :=
  .text {}

/-- One more character outside of comments. A slash in a string opens nothing. -/
def nextInText (enclosure : Enclosure) (c : Char) : Scan :=
  if c = '/' ∧ enclosure.inString = false then .slash enclosure else .text (enclosure.next c)

/-- Where the scanner stands after one more character. -/
def next : Scan → Char → Scan
  | .text enclosure, c => nextInText enclosure c
  | .slash enclosure, c =>
    if c = '*' then .comment enclosure else nextInText (enclosure.next '/') c
  | .comment enclosure, c => if c = '*' then .star enclosure else .comment enclosure
  | .star enclosure, c =>
    if c = '/' then .text enclosure
    else if c = '*' then .star enclosure
    else .comment enclosure

/-- The enclosure that decides about the next character, unless that belongs to a comment. -/
def enclosure? : Scan → Option Enclosure
  | .text enclosure => some enclosure
  | .slash enclosure => some (enclosure.next '/')
  | .comment _ => none
  | .star _ => none

/-- What the next character ends the run as, if it does. -/
def ending? (scan : Scan) (c : Char) : Option Ending :=
  match scan.enclosure? with
  | none => none
  | some enclosure =>
    if c = '{' then some .opening
    else if c = '}' then some .closing
    else if c = ';' ∧ enclosure.exposes c then some .semicolon
    else none

/-- The run that a text starts with, what ended it, and the text after that. A text in which
nothing ends the run has none. -/
def run : Scan → List Char → Option (List Char × Ending × List Char)
  | _, [] => none
  | scan, c :: rest =>
    match scan.ending? c with
    | some ending => some ([], ending, rest)
    | none => (run (scan.next c) rest).map fun (taken, ending, after) => (c :: taken, ending, after)

/-- The division of a text loses nothing but the character that ended the run. -/
theorem length_of_run {scan : Scan} {input taken after : List Char} {ending : Ending}
    (h : run scan input = some (taken, ending, after)) :
    input.length = taken.length + after.length + 1 := by
  induction input generalizing scan taken with
  | nil => simp [run] at h
  | cons c rest ih =>
    rw [run] at h
    split at h
    · simp_all
    · obtain ⟨⟨t, e, a⟩, hrun, heq⟩ := Option.map_eq_some_iff.1 h
      simp only [Prod.mk.injEq] at heq
      obtain ⟨rfl, rfl, rfl⟩ := heq
      have := ih hrun
      simp only [List.length_cons]
      omega

/-- A run whose first character ends nothing holds that character. -/
theorem ne_nil_of_run {scan : Scan} {c : Char} {rest taken after : List Char} {ending : Ending}
    (hc : scan.ending? c = none) (h : run scan (c :: rest) = some (taken, ending, after)) :
    taken ≠ [] := by
  rw [run, hc] at h
  obtain ⟨⟨t, e, a⟩, _, heq⟩ := Option.map_eq_some_iff.1 h
  simp only [Prod.mk.injEq] at heq
  simp [← heq.1]

end Scan

end StyleTree
