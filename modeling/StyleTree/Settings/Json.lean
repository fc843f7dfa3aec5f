import StyleTree.Event
import StyleTree.Json.Parser

/-!
# Settings and their JSON texts

Settings are read from an object with any of the fields, each at most once, in any order and with
others among them, or from an array of values in the order of the fields.
-/

namespace StyleTree

/-- How a style sheet is read. -/
structure Settings where
  /-- Whether it is read into a listing rather than into a keyed block. -/
  ordered : Bool := false
  /-- Whether a listing keeps comments. -/
  comments : Bool := false
  /-- Whether comments are removed before anything else, even within selectors and values. -/
  stripComments : Bool := false
  /-- Whether a block with several selectors is stored under each of them. -/
  split : Bool := false
  /-- How many blocks may be open at a time. -/
  maxDepth : UInt64 := 128
deriving DecidableEq, Repr

/-- Whether comments come out. Removing them beforehand wins over keeping them. -/
def Settings.keepsComments (settings : Settings) : Bool :=
  settings.comments && !settings.stripComments

namespace Settings

/-- What can be set. -/
inductive Field where
  | ordered
  | comments
  | stripComments
  | split
  | maxDepth
deriving DecidableEq, Repr

namespace Field

/-- The fields in the order of an array. -/
def all : List Field :=
  [.ordered, .comments, .stripComments, .split, .maxDepth]

/-- The key of a field. -/
def key : Field → String
  | .ordered => "ordered"
  | .comments => "comments"
  | .stripComments => "stripComments"
  | .split => "split"
  | .maxDepth => "maxDepth"

/-- The field with a key. -/
def ofKey? (key : String) : Option Field :=
  all.find? fun field => field.key == key

/-- The value of a field. -/
def get (settings : Settings) : Field → Json
  | .ordered => .bool settings.ordered
  | .comments => .bool settings.comments
  | .stripComments => .bool settings.stripComments
  | .split => .bool settings.split
  | .maxDepth => .number (.ofNat settings.maxDepth.toNat)

/-- The settings with a field set to a value, if the value is of the right kind. -/
def set? (settings : Settings) : Field → Json → Option Settings
  | .ordered, .bool value => some { settings with ordered := value }
  | .comments, .bool value => some { settings with comments := value }
  | .stripComments, .bool value => some { settings with stripComments := value }
  | .split, .bool value => some { settings with split := value }
  | .maxDepth, .number numeral =>
    match numeral.toNat? with
    | some depth =>
      if depth < UInt64.size then some { settings with maxDepth := .ofNat depth } else none
    | none => none
  | _, _ => none

end Field

/-- The value of settings. -/
def toJson (settings : Settings) : Json :=
  .object (Field.all.map fun field => (field.key, field.get settings))

/-- The settings with a field set to the value at the start of a text. An array or object is
refused where it begins; any other value is read to its end first. -/
def readField (settings : Settings) (field : Field) (text : List Char) :
    Except Json.Fault (Settings × List Char) :=
  match Json.skipBlanks text with
  | '[' :: _ => .error .unsuitable
  | '{' :: _ => .error .unsuitable
  | text =>
    match Json.readScalar .kept text with
    | .error fault => .error fault
    | .ok (value, rest) =>
      match field.set? settings value with
      | none => .error .unsuitable
      | some changed => .ok (changed, rest)

/-- Settings part way through an object, with the fields that were set. -/
structure Draft where
  settings : Settings := {}
  seen : List Field := []

/-- The settings after the member at the start of a text. A field that was set before is refused
at its key; the value of a key that is no field is passed over. -/
def readMember (draft : Draft) (text : List Char) : Except Json.Fault (Draft × List Char) :=
  match Json.readKey .kept text with
  | .error fault => .error fault
  | .ok (key, rest) =>
    match Field.ofKey? key with
    | some field =>
      if field ∈ draft.seen then .error .unsuitable
      else
        match Json.readColon rest with
        | .error fault => .error fault
        | .ok rest =>
          (draft.settings.readField field rest).map fun (settings, rest) =>
            (⟨settings, field :: draft.seen⟩, rest)
    | none =>
      match Json.readColon rest with
      | .error fault => .error fault
      | .ok rest => (Json.read .skipped rest).map fun (_, rest) => (draft, rest)

theorem length_of_readField {settings changed : Settings} {field : Field}
    {text rest : List Char} (h : readField settings field text = .ok (changed, rest)) :
    rest.length < text.length := by
  refine Nat.lt_of_lt_of_le ?_ (Json.length_skipBlanks text)
  unfold readField at h
  split at h
  · simp at h
  · simp at h
  · split at h
    · simp at h
    · rename_i hread
      have := Json.length_of_readScalar hread
      split at h
      · simp at h
      · simp_all

/-- A member takes at least one character. -/
theorem length_of_readMember {draft changed : Draft} {text rest : List Char}
    (h : readMember draft text = .ok (changed, rest)) : rest.length < text.length := by
  unfold readMember at h
  split at h
  · simp at h
  · rename_i hkey
    refine Nat.lt_trans ?_ (Json.length_of_readKey hkey)
    split at h
    · split at h
      · simp at h
      · split at h
        · simp at h
        · rename_i hcolon
          obtain ⟨⟨settings, after⟩, hread, heq⟩ := Json.exists_of_map_eq_ok h
          obtain ⟨_, rfl⟩ := Prod.mk.inj heq
          exact Nat.lt_trans (length_of_readField hread) (Json.length_of_readColon hcolon)
    · split at h
      · simp at h
      · rename_i hcolon
        obtain ⟨⟨value, after⟩, hread, heq⟩ := Json.exists_of_map_eq_ok h
        obtain ⟨_, rfl⟩ := Prod.mk.inj heq
        exact Nat.lt_trans (Json.length_of_read hread) (Json.length_of_readColon hcolon)

/-- The settings after all members of an object, of which one is at the start of a text. -/
def readMembers (draft : Draft) (text : List Char) :
    Except Json.Fault (Settings × List Char) :=
  match _ : readMember draft text with
  | .error fault => .error fault
  | .ok (draft, rest) =>
    match _ : Json.skipBlanks rest with
    | [] => .error .cutShort
    | '}' :: rest => .ok (draft.settings, rest)
    | ',' :: rest => readMembers draft (Json.skipBlanks rest)
    | _ => .error .malformed
termination_by text.length
decreasing_by
  have hmember := length_of_readMember ‹_›
  have hcomma := Json.length_of_skipBlanks_eq_cons ‹_›
  exact Nat.lt_of_le_of_lt (Json.length_skipBlanks _) (Nat.lt_trans hcomma hmember)

/-- The settings after the items of an array for some fields, after one item or more were
read. -/
def readItems : List Field → Settings → List Char → Except Json.Fault (Settings × List Char)
  | [], settings, text =>
    match Json.skipBlanks text with
    | [] => .error .cutShort
    | ']' :: rest => .ok (settings, rest)
    | _ => .error .malformed
  | field :: fields, settings, text =>
    match Json.skipBlanks text with
    | [] => .error .cutShort
    | ']' :: rest => .ok (settings, rest)
    | ',' :: rest =>
      match settings.readField field rest with
      | .error fault => .error fault
      | .ok (settings, rest) => readItems fields settings rest
    | _ => .error .malformed

/-- The settings at the start of a text. A value that is neither an object nor an array is
refused after it was read. -/
def read (text : List Char) : Except Json.Fault (Settings × List Char) :=
  match Json.skipBlanks text with
  | '{' :: rest =>
    match Json.skipBlanks rest with
    | '}' :: rest => .ok ({}, rest)
    | text => readMembers {} text
  | '[' :: rest =>
    match Json.skipBlanks rest with
    | ']' :: rest => .ok ({}, rest)
    | text =>
      match readField {} .ordered text with
      | .error fault => .error fault
      | .ok (settings, rest) => readItems Field.all.tail settings rest
  | text =>
    match Json.readScalar .kept text with
    | .error fault => .error fault
    | .ok _ => .error .unsuitable

/-- The settings that a whole JSON text describes. Fields that it does not set are as usual. -/
def ofJsonText (text : String) : Except Error Settings :=
  match Json.whole (read text.toList) with
  | .error fault => .error (.json fault)
  | .ok settings => .ok settings

end Settings

end StyleTree
