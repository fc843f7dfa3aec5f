import StyleTree.Json
import StyleTree.Json.Numbers
import StyleTree.Json.Strings
import StyleTree.Table

/-!
# Reading JSON texts

A text is read from left to right, with the arrays and objects that are open on a stack, up to its
first fault. A value that is kept may have at most 127 of them open at a time.
-/

namespace StyleTree.Json

/-- Whether a character means nothing between the parts of a JSON text. -/
def isBlank (c : Char) : Bool :=
  c == ' ' || c == '\t' || c == '\n' || c == '\r'

/-- The text after the blanks at its start. -/
def skipBlanks (text : List Char) : List Char :=
  text.dropWhile isBlank

theorem length_skipBlanks (text : List Char) : (skipBlanks text).length ≤ text.length :=
  (List.dropWhile_suffix isBlank).length_le

theorem length_of_skipBlanks_eq_cons {text rest : List Char} {c : Char}
    (h : skipBlanks text = c :: rest) : rest.length < text.length := by
  have := length_skipBlanks text
  rw [h, List.length_cons] at this
  exact this

/-! ### Scalars -/

/-- The text after a word that has to stand at its start. -/
def readWord : List Char → List Char → Except Fault (List Char)
  | [], text => .ok text
  | _ :: _, [] => .error .cutShort
  | letter :: letters, c :: rest =>
    if c = letter then readWord letters rest else .error .malformed

/-- The value at the start of a text, if it is neither an array nor an object. -/
def readScalar (use : Use) : List Char → Except Fault (Json × List Char)
  | [] => .error .cutShort
  | '"' :: rest =>
    (readString use rest).map fun (text, rest) => (.string (String.ofList text), rest)
  | 'n' :: rest => (readWord ['u', 'l', 'l'] rest).map fun rest => (.null, rest)
  | 't' :: rest => (readWord ['r', 'u', 'e'] rest).map fun rest => (.bool true, rest)
  | 'f' :: rest => (readWord ['a', 'l', 's', 'e'] rest).map fun rest => (.bool false, rest)
  | c :: rest =>
    if c = '-' ∨ c.isDigit then
      (readNumber use (c :: rest)).map fun (numeral, rest) => (.number numeral, rest)
    else .error .malformed

/-- The key at the start of a text, which has to be a string. -/
def readKey (use : Use) : List Char → Except Fault (String × List Char)
  | [] => .error .cutShort
  | '"' :: rest => (readString use rest).map fun (text, rest) => (String.ofList text, rest)
  | _ => .error .malformed

/-- The text after a colon, which may have blanks before it. -/
def readColon (text : List Char) : Except Fault (List Char) :=
  match skipBlanks text with
  | [] => .error .cutShort
  | ':' :: rest => .ok rest
  | _ => .error .malformed

/-! ### Places -/

/-- An array or object that is open. -/
inductive Frame where
  /-- An array with the items before the one that is read, the last of them first. -/
  | array (items : List Json)
  /-- An object with the members before the one that is read, and the key of that one. -/
  | object (members : List (String × Json)) (key : String)

/-- What has to come next in a text. -/
inductive Goal where
  /-- A value. -/
  | value
  /-- The first item of an array that was opened, or its end. -/
  | firstItem
  /-- The first member of an object that was opened, or its end. -/
  | firstMember
  /-- After an item or member with the value that was read, another one, or the end. -/
  | more (value : Json) (frame : Frame)

/-- A place in a text: what is open, from the inside out, and what has to come next. -/
structure Place where
  frames : List Frame := []
  goal : Goal := .value

/-- How far the reading of a value has come. -/
inductive Progress where
  | finished (value : Json)
  | ongoing (place : Place)

/-- How many arrays and objects may be open at a time in a value that is kept. -/
def maxOpen : Nat :=
  127

/-- Whether one more array or object may be opened where `frames` are open. -/
def mayOpen (use : Use) (frames : List Frame) : Bool :=
  use == .skipped || frames.length < maxOpen

/-- The place after a value that is complete. -/
def settle (value : Json) : List Frame → Progress
  | [] => .finished value
  | frame :: frames => .ongoing ⟨frames, .more value frame⟩

/-- The place after the part of a text that begins a value. -/
def beginValue (use : Use) (frames : List Frame) :
    List Char → Except Fault (Progress × List Char)
  | '[' :: rest =>
    if mayOpen use frames then .ok (.ongoing ⟨frames, .firstItem⟩, rest)
    else .error .malformed
  | '{' :: rest =>
    if mayOpen use frames then .ok (.ongoing ⟨frames, .firstMember⟩, rest)
    else .error .malformed
  | text => (readScalar use text).map fun (value, rest) => (settle value frames, rest)

/-- The place after the key of a member, which comes after other members. -/
def beginMember (use : Use) (frames : List Frame) (members : List (String × Json))
    (text : List Char) : Except Fault (Progress × List Char) :=
  match readKey use text with
  | .error fault => .error fault
  | .ok (key, rest) =>
    (readColon rest).map fun rest => (.ongoing ⟨.object members key :: frames, .value⟩, rest)

/-- The place after the mark that comes after an item or member. -/
def continueFrom (use : Use) (frames : List Frame) (value : Json) :
    Frame → List Char → Except Fault (Progress × List Char)
  | _, [] => .error .cutShort
  | .array items, ',' :: rest =>
    .ok (.ongoing ⟨.array (value :: items) :: frames, .value⟩, rest)
  | .array items, ']' :: rest => .ok (settle (.array (value :: items).reverse) frames, rest)
  | .object members key, ',' :: rest =>
    beginMember use frames (Table.insert key value members) (skipBlanks rest)
  | .object members key, '}' :: rest =>
    .ok (settle (.object (Table.insert key value members)) frames, rest)
  | _, _ => .error .malformed

/-- The place after one more part of a text. -/
def step (use : Use) (place : Place) (text : List Char) :
    Except Fault (Progress × List Char) :=
  match place.goal, skipBlanks text with
  | .value, text => beginValue use place.frames text
  | .firstItem, ']' :: rest => .ok (settle (.array []) place.frames, rest)
  | .firstItem, text => beginValue use (.array [] :: place.frames) text
  | .firstMember, '}' :: rest => .ok (settle (.object []) place.frames, rest)
  | .firstMember, text => beginMember use place.frames [] text
  | .more value frame, text => continueFrom use place.frames value frame text

/-! ### Every step takes some of the text -/

theorem length_of_readWord {word text rest : List Char} (h : readWord word text = .ok rest) :
    rest.length ≤ text.length := by
  fun_induction readWord word text with
  | case1 => simp_all
  | case2 => simp at h
  | case3 letters c rest ih => exact Nat.le_succ_of_le (ih h)
  | case4 => simp at h

/-- A result of a reader that was mapped comes from a result of that reader. -/
theorem exists_of_map_eq_ok {α γ : Type} {f : α → γ} {read : Except Fault α} {result : γ}
    (h : read.map f = .ok result) : ∃ a, read = .ok a ∧ f a = result := by
  cases read with
  | error => simp [Except.map] at h
  | ok a => exact ⟨a, rfl, by simpa [Except.map] using h⟩

theorem length_of_readScalar {use : Use} {text rest : List Char} {value : Json}
    (h : readScalar use text = .ok (value, rest)) : rest.length < text.length := by
  unfold readScalar at h
  split at h
  · simp at h
  · obtain ⟨⟨taken, after⟩, hread, heq⟩ := exists_of_map_eq_ok h
    obtain ⟨_, rfl⟩ := Prod.mk.inj heq
    exact Nat.lt_succ_of_lt (length_of_readString hread)
  iterate 3
    · obtain ⟨after, hread, heq⟩ := exists_of_map_eq_ok h
      obtain ⟨_, rfl⟩ := Prod.mk.inj heq
      exact Nat.lt_succ_of_le (length_of_readWord hread)
  · split at h
    · obtain ⟨⟨taken, after⟩, hread, heq⟩ := exists_of_map_eq_ok h
      obtain ⟨_, rfl⟩ := Prod.mk.inj heq
      exact length_of_readNumber hread
    · simp at h

theorem length_of_readKey {use : Use} {text rest : List Char} {key : String}
    (h : readKey use text = .ok (key, rest)) : rest.length < text.length := by
  unfold readKey at h
  split at h
  · simp at h
  · obtain ⟨⟨taken, after⟩, hread, heq⟩ := exists_of_map_eq_ok h
    obtain ⟨_, rfl⟩ := Prod.mk.inj heq
    exact Nat.lt_succ_of_lt (length_of_readString hread)
  · simp at h

theorem length_of_readColon {text rest : List Char} (h : readColon text = .ok rest) :
    rest.length < text.length := by
  unfold readColon at h
  split at h
  · simp at h
  · rename_i heq
    have := length_of_skipBlanks_eq_cons heq
    simp_all
  · simp at h

theorem length_of_beginValue {use : Use} {frames : List Frame} {text rest : List Char}
    {progress : Progress} (h : beginValue use frames text = .ok (progress, rest)) :
    rest.length < text.length := by
  unfold beginValue at h
  split at h
  · split at h <;> simp_all
  · split at h <;> simp_all
  · obtain ⟨⟨value, after⟩, hread, heq⟩ := exists_of_map_eq_ok h
    obtain ⟨_, rfl⟩ := Prod.mk.inj heq
    exact length_of_readScalar hread

theorem length_of_beginMember {use : Use} {frames : List Frame}
    {members : List (String × Json)} {text rest : List Char} {progress : Progress}
    (h : beginMember use frames members text = .ok (progress, rest)) :
    rest.length < text.length := by
  unfold beginMember at h
  split at h
  · simp at h
  · rename_i hkey
    obtain ⟨after, hcolon, heq⟩ := exists_of_map_eq_ok h
    obtain ⟨_, rfl⟩ := Prod.mk.inj heq
    exact Nat.lt_trans (length_of_readColon hcolon) (length_of_readKey hkey)

theorem length_of_continueFrom {use : Use} {frames : List Frame} {value : Json} {frame : Frame}
    {text rest : List Char} {progress : Progress}
    (h : continueFrom use frames value frame text = .ok (progress, rest)) :
    rest.length < text.length := by
  unfold continueFrom at h
  split at h
  · simp at h
  · simp_all
  · simp_all
  · have hskip := length_skipBlanks
    exact Nat.lt_succ_of_lt (Nat.lt_of_lt_of_le (length_of_beginMember h) (hskip _))
  · simp_all
  · simp at h

theorem length_of_step {use : Use} {place : Place} {text rest : List Char} {progress : Progress}
    (h : step use place text = .ok (progress, rest)) : rest.length < text.length := by
  have hskip := length_skipBlanks text
  refine Nat.lt_of_lt_of_le ?_ hskip
  unfold step at h
  split at h
  · exact length_of_beginValue h
  · simp_all
  · exact length_of_beginValue h
  · simp_all
  · exact length_of_beginMember h
  · exact length_of_continueFrom h

/-! ### Values -/

/-- The value that is complete after as many steps as it takes from a place. -/
def readFrom (use : Use) (place : Place) (text : List Char) : Except Fault (Json × List Char) :=
  match _ : step use place text with
  | .error fault => .error fault
  | .ok (.finished value, rest) => .ok (value, rest)
  | .ok (.ongoing next, rest) => readFrom use next rest
termination_by text.length
decreasing_by exact length_of_step ‹_›

/-- The value at the start of a text, and what comes after it. -/
def read (use : Use) (text : List Char) : Except Fault (Json × List Char) :=
  readFrom use {} text

theorem length_of_readFrom {use : Use} {place : Place} {text rest : List Char} {value : Json}
    (h : readFrom use place text = .ok (value, rest)) : rest.length < text.length := by
  fun_induction readFrom use place text with
  | case1 => simp at h
  | case2 place text value after hstep =>
    simp only [Except.ok.injEq, Prod.mk.injEq] at h
    exact h.2 ▸ length_of_step hstep
  | case3 place text next after hstep ih => exact Nat.lt_trans (ih h) (length_of_step hstep)

/-- A value takes at least one character. -/
theorem length_of_read {use : Use} {text rest : List Char} {value : Json}
    (h : read use text = .ok (value, rest)) : rest.length < text.length :=
  length_of_readFrom h

/-- A result of which nothing but blanks may be left. -/
def whole {α : Type} : Except Fault (α × List Char) → Except Fault α
  | .error fault => .error fault
  | .ok (result, rest) => if rest.all isBlank then .ok result else .error .malformed

/-- The value of a whole text. -/
def parse (text : String) : Except Fault Json :=
  whole (read .kept text.toList)

end StyleTree.Json
