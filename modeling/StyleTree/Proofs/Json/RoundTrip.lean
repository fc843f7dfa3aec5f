import Mathlib.Logic.Basic
import StyleTree.Proofs.Json.Strings
import StyleTree.Proofs.Table

/-!
# JSON values that are written and read

A value without numbers, in whose objects each key comes once, is read back from its text in either
layout, unless it is kept and nests too deeply.
-/

namespace StyleTree.Json

/-! ### The shape of values -/

mutual

/-- How many arrays and objects are nested in a value, one in the other, with itself. -/
def height : Json → Nat
  | .null | .bool _ | .number _ | .string _ => 0
  | .array items => heightOfItems items + 1
  | .object members => heightOfMembers members + 1

/-- The height of the highest of several items. -/
def heightOfItems : List Json → Nat
  | [] => 0
  | item :: rest => max item.height (heightOfItems rest)

/-- The height of the highest value among several members. -/
def heightOfMembers : List (String × Json) → Nat
  | [] => 0
  | (_, value) :: rest => max value.height (heightOfMembers rest)

end

mutual

/-- Whether a value has no numbers in it, and each key once in each of its objects. -/
def Regular : Json → Prop
  | .null | .bool _ | .string _ => True
  | .number _ => False
  | .array items => RegularItems items
  | .object members => (Table.keys members).Nodup ∧ RegularMembers members

/-- The same for items. -/
def RegularItems : List Json → Prop
  | [] => True
  | item :: rest => item.Regular ∧ RegularItems rest

/-- The same for the values of members. -/
def RegularMembers : List (String × Json) → Prop
  | [] => True
  | (_, value) :: rest => value.Regular ∧ RegularMembers rest

end

/-- Whether values of a height may stand where a number of arrays and objects are open. -/
def Fits (use : Use) (depth height : Nat) : Prop :=
  use = .skipped ∨ height = 0 ∨ depth + height ≤ maxOpen

instance (use : Use) (depth height : Nat) : Decidable (Fits use depth height) :=
  inferInstanceAs (Decidable (use = .skipped ∨ height = 0 ∨ depth + height ≤ maxOpen))

variable {use : Use} {frames : List Frame}

theorem fits_zero (depth : Nat) : Fits use depth 0 :=
  .inr (.inl rfl)

theorem fits_succ {height : Nat} :
    Fits use frames.length (height + 1) ↔
      mayOpen use frames = true ∧ Fits use (frames.length + 1) height := by
  cases use with
  | kept =>
    simp only [Fits, mayOpen, reduceCtorEq, false_or, beq_iff_eq, Bool.or_eq_true,
      decide_eq_true_eq]
    omega
  | skipped => simp [Fits, mayOpen]

theorem fits_max {depth left right : Nat} :
    Fits use depth (max left right) ↔ Fits use depth left ∧ Fits use depth right := by
  cases use with
  | kept =>
    simp only [Fits, reduceCtorEq, false_or]
    omega
  | skipped => simp [Fits]

/-! ### Blanks -/

theorem skipBlanks_cons {c : Char} (h : isBlank c = false) (text : List Char) :
    skipBlanks (c :: text) = c :: text := by
  rw [skipBlanks, List.dropWhile_cons_of_neg (by simp [h])]

theorem skipBlanks_append {blanks : List Char} (h : blanks.all isBlank = true)
    (text : List Char) : skipBlanks (blanks ++ text) = skipBlanks text := by
  rw [skipBlanks, skipBlanks, List.dropWhile_append_of_pos (by simpa using h)]

theorem all_isBlank_lineBreak (layout : Layout) (level : Nat) :
    (layout.lineBreak level).all isBlank = true := by
  cases layout with
  | compact => rfl
  | indented =>
    rw [Layout.lineBreak, List.all_cons, List.all_replicate]
    simp [isBlank]

/-- A value begins with neither a blank nor the end of an array. -/
theorem exists_chars_eq_cons (layout : Layout) (level : Nat) {value : Json} (h : value.Regular) :
    ∃ c rest, value.chars layout level = c :: rest ∧ isBlank c = false ∧ c ≠ ']' := by
  cases value with
  | null => exact ⟨'n', _, rfl, by decide, by decide⟩
  | bool flag => cases flag <;> exact ⟨_, _, rfl, by decide, by decide⟩
  | number numeral => exact h.elim
  | string text => exact ⟨'"', _, rfl, by decide, by decide⟩
  | array items => cases items <;> exact ⟨'[', _, rfl, by decide, by decide⟩
  | object members => cases members <;> exact ⟨'\x7b', _, rfl, by decide, by decide⟩

/-! ### Steps -/

/-- What is read from a place, if the value is not complete yet. -/
def resume (use : Use) : Progress → List Char → Except Fault (Json × List Char)
  | .finished value, text => .ok (value, text)
  | .ongoing place, text => readFrom use place text

/-- What is read in a text of which one part was read, or was at fault. -/
def resumeAfter (use : Use) :
    Except Fault (Progress × List Char) → Except Fault (Json × List Char)
  | .error fault => .error fault
  | .ok (progress, rest) => resume use progress rest

theorem readFrom_eq (place : Place) (text : List Char) :
    readFrom use place text = resumeAfter use (step use place text) := by
  rw [readFrom]
  split <;> simp_all [resumeAfter, resume]

theorem readFrom_blanks (place : Place) {blanks : List Char} (h : blanks.all isBlank = true)
    (text : List Char) : readFrom use place (blanks ++ text) = readFrom use place text := by
  rw [readFrom_eq, readFrom_eq, step, step, skipBlanks_append h]

theorem readFrom_value (text : List Char) :
    readFrom use ⟨frames, .value⟩ text =
      resumeAfter use (beginValue use frames (skipBlanks text)) := by
  rw [readFrom_eq]
  rfl

theorem readFrom_more (value : Json) (frame : Frame) (text : List Char) :
    readFrom use ⟨frames, .more value frame⟩ text =
      resumeAfter use (continueFrom use frames value frame (skipBlanks text)) := by
  rw [readFrom_eq]
  rfl

/-- A value that is neither an array nor an object is read in one step. -/
theorem readFrom_scalar {c : Char} {text rest : List Char} {value : Json}
    (hblank : isBlank c = false) (harray : c ≠ '[') (hobject : c ≠ '\x7b')
    (h : readScalar use (c :: text) = .ok (value, rest)) :
    readFrom use ⟨frames, .value⟩ (c :: text) = resume use (settle value frames) rest := by
  have hbegin : beginValue use frames (c :: text) = .ok (settle value frames, rest) := by
    unfold beginValue
    split <;> simp_all [Except.map]
  rw [readFrom_value, skipBlanks_cons hblank, hbegin, resumeAfter]

theorem readFrom_openArray (text : List Char) :
    readFrom use ⟨frames, .value⟩ ('[' :: text) =
      if mayOpen use frames then readFrom use ⟨frames, .firstItem⟩ text
      else .error .malformed := by
  rw [readFrom_value, skipBlanks_cons (by decide)]
  simp only [beginValue]
  split_ifs <;> rfl

theorem readFrom_openObject (text : List Char) :
    readFrom use ⟨frames, .value⟩ ('\x7b' :: text) =
      if mayOpen use frames then readFrom use ⟨frames, .firstMember⟩ text
      else .error .malformed := by
  rw [readFrom_value, skipBlanks_cons (by decide)]
  simp only [beginValue]
  split_ifs <;> rfl

theorem readFrom_emptyArray (text : List Char) :
    readFrom use ⟨frames, .firstItem⟩ (']' :: text) =
      resume use (settle (.array []) frames) text := by
  rw [readFrom_eq, step, skipBlanks_cons (by decide)]
  rfl

theorem readFrom_emptyObject (text : List Char) :
    readFrom use ⟨frames, .firstMember⟩ ('\x7d' :: text) =
      resume use (settle (.object []) frames) text := by
  rw [readFrom_eq, step, skipBlanks_cons (by decide)]
  rfl

theorem readFrom_firstItem {c : Char} (hblank : isBlank c = false) (hend : c ≠ ']')
    (text : List Char) :
    readFrom use ⟨frames, .firstItem⟩ (c :: text) =
      readFrom use ⟨.array [] :: frames, .value⟩ (c :: text) := by
  rw [readFrom_value, readFrom_eq, step, skipBlanks_cons hblank]
  simp [hend]

theorem readFrom_firstItem_chars (layout : Layout) (level : Nat) {item : Json} (h : item.Regular)
    (more : List Char) :
    readFrom use ⟨frames, .firstItem⟩ (item.chars layout level ++ more) =
      readFrom use ⟨.array [] :: frames, .value⟩ (item.chars layout level ++ more) := by
  obtain ⟨c, rest, hchars, hblank, hend⟩ := exists_chars_eq_cons layout level h
  rw [hchars]
  exact readFrom_firstItem hblank hend _

/-- The value that is complete after a member, which comes after other members, and after as many
steps as it takes from there. -/
def readMembers (use : Use) (frames : List Frame) (members : List (String × Json))
    (text : List Char) : Except Fault (Json × List Char) :=
  resumeAfter use (beginMember use frames members (skipBlanks text))

/-- The first member of an object is read as any other. -/
theorem readFrom_firstMember {c : Char} (hend : c ≠ '\x7d') {text rest : List Char}
    (h : skipBlanks text = c :: rest) :
    readFrom use ⟨frames, .firstMember⟩ text = readMembers use frames [] text := by
  rw [readFrom_eq, step, readMembers, h]
  simp [hend]

/-! ### Items and members -/

theorem readFrom_nextItem (item : Json) (done : List Json) (text : List Char) :
    readFrom use ⟨frames, .more item (.array done)⟩ (',' :: text) =
      readFrom use ⟨.array (item :: done) :: frames, .value⟩ text := by
  rw [readFrom_more, skipBlanks_cons (by decide)]
  rfl

theorem readFrom_lastItem (item : Json) (done : List Json) {blanks : List Char}
    (h : blanks.all isBlank = true) (text : List Char) :
    readFrom use ⟨frames, .more item (.array done)⟩ (blanks ++ ']' :: text) =
      resume use (settle (.array (item :: done).reverse) frames) text := by
  rw [readFrom_more, skipBlanks_append h, skipBlanks_cons (by decide)]
  rfl

theorem readFrom_nextMember (value : Json) (done : List (String × Json)) (key : String)
    (text : List Char) :
    readFrom use ⟨frames, .more value (.object done key)⟩ (',' :: text) =
      readMembers use frames (Table.insert key value done) text := by
  rw [readFrom_more, skipBlanks_cons (by decide)]
  rfl

theorem readFrom_lastMember (value : Json) (done : List (String × Json)) (key : String)
    {blanks : List Char} (h : blanks.all isBlank = true) (text : List Char) :
    readFrom use ⟨frames, .more value (.object done key)⟩ (blanks ++ '\x7d' :: text) =
      resume use (settle (.object (Table.insert key value done)) frames) text := by
  rw [readFrom_more, skipBlanks_append h, skipBlanks_cons (by decide)]
  rfl

theorem readColon_colon (layout : Layout) (text : List Char) :
    ∃ blanks, blanks.all isBlank = true ∧
      readColon (layout.colon ++ text) = .ok (blanks ++ text) := by
  cases layout with
  | compact => exact ⟨[], rfl, rfl⟩
  | indented => exact ⟨[' '], rfl, rfl⟩

theorem readMembers_member (layout : Layout) (level : Nat) (done : List (String × Json))
    (key : String) (text : List Char) :
    readMembers use frames done
        (layout.lineBreak level ++ (stringChars key ++ (layout.colon ++ text))) =
      readFrom use ⟨.object done key :: frames, .value⟩ text := by
  obtain ⟨blanks, hblanks, hcolon⟩ := readColon_colon layout text
  have hbegin : beginMember use frames done (stringChars key ++ (layout.colon ++ text)) =
      .ok (.ongoing ⟨.object done key :: frames, .value⟩, blanks ++ text) := by
    rw [beginMember, readKey_stringChars]
    simp [hcolon, Except.map]
  have hskip : skipBlanks (stringChars key ++ (layout.colon ++ text)) =
      stringChars key ++ (layout.colon ++ text) := skipBlanks_cons (by decide) _
  rw [readMembers, skipBlanks_append (all_isBlank_lineBreak layout level), hskip, hbegin]
  exact readFrom_blanks _ hblanks text

theorem readFrom_firstMember_member (layout : Layout) (level : Nat) (key : String)
    (text : List Char) :
    readFrom use ⟨frames, .firstMember⟩ (layout.lineBreak level ++ (stringChars key ++ text)) =
      readMembers use frames [] (layout.lineBreak level ++ (stringChars key ++ text)) := by
  have hskip : skipBlanks (layout.lineBreak level ++ (stringChars key ++ text)) =
      stringChars key ++ text := by
    rw [skipBlanks_append (all_isBlank_lineBreak layout level)]
    exact skipBlanks_cons (by decide) _
  exact readFrom_firstMember (by decide) hskip

theorem comma_cons {α : Type} (a : α) (rest : List α) : comma (a :: rest) = [','] :=
  rfl

/-! ### Values -/

variable (layout : Layout)

mutual

/-- A value is read to its end if it fits where it stands. Otherwise the text is malformed, namely
where too much would be open. -/
theorem readFrom_chars : ∀ (value : Json) (level : Nat) (frames : List Frame) (more : List Char),
    value.Regular →
    readFrom use ⟨frames, .value⟩ (value.chars layout level ++ more) =
      if Fits use frames.length value.height then resume use (settle value frames) more
      else .error .malformed
  | .null, level, frames, more, _ => by
    rw [height, if_pos (fits_zero _)]
    exact readFrom_scalar (by decide) (by decide) (by decide) rfl
  | .bool true, level, frames, more, _ => by
    rw [height, if_pos (fits_zero _)]
    exact readFrom_scalar (by decide) (by decide) (by decide) rfl
  | .bool false, level, frames, more, _ => by
    rw [height, if_pos (fits_zero _)]
    exact readFrom_scalar (by decide) (by decide) (by decide) rfl
  | .number _, _, _, _, h => h.elim
  | .string text, level, frames, more, _ => by
    rw [height, if_pos (fits_zero _)]
    exact readFrom_scalar (by decide) (by decide) (by decide) (readScalar_stringChars text more)
  | .array [], level, frames, more, _ => by
    rw [chars, List.cons_append, List.singleton_append, readFrom_openArray, readFrom_emptyArray,
      height, heightOfItems, if_congr fits_succ rfl rfl]
    simp [fits_zero]
  | .array (item :: rest), level, frames, more, h => by
    -- What follows the first item decides nothing for it, and then the others are read.
    have hitem := readFrom_chars item (level + 1) (.array [] :: frames)
      (comma rest ++ (itemChars layout (level + 1) rest ++ (layout.lineBreak level ++ ']' :: more)))
      h.1
    have hrest := readFrom_comma_itemChars rest (level + 1) level item [] frames more h.2
    simp only [chars, itemChars, List.cons_append, List.append_assoc, List.nil_append]
    rw [readFrom_openArray, readFrom_blanks _ (all_isBlank_lineBreak layout _),
      readFrom_firstItem_chars layout _ h.1, hitem, settle, resume, hrest]
    simp only [height, heightOfItems, fits_succ, fits_max, ite_and]
    rfl
  | .object [], level, frames, more, _ => by
    rw [chars, List.cons_append, List.singleton_append, readFrom_openObject, readFrom_emptyObject,
      height, heightOfMembers, if_congr fits_succ rfl rfl]
    simp [fits_zero]
  | .object ((key, value) :: rest), level, frames, more, h => by
    have hvalue := readFrom_chars value (level + 1) (.object [] key :: frames)
      (comma rest ++ (memberChars layout (level + 1) rest ++
        (layout.lineBreak level ++ '\x7d' :: more))) h.2.1
    have hrest := readFrom_comma_memberChars rest (level + 1) level key value [] frames more
      h.2.2 h.1
    simp only [chars, memberChars, List.cons_append, List.append_assoc, List.nil_append]
    rw [readFrom_openObject, readFrom_firstMember_member, readMembers_member, hvalue, settle,
      resume, hrest]
    simp only [height, heightOfMembers, fits_succ, fits_max, ite_and]
    rfl

/-- After an item, the others are read to the end of their array if they fit in it. -/
theorem readFrom_comma_itemChars : ∀ (rest : List Json) (level outer : Nat) (item : Json)
    (done : List Json) (frames : List Frame) (more : List Char), RegularItems rest →
    readFrom use ⟨frames, .more item (.array done)⟩
        (comma rest ++ (itemChars layout level rest ++ (layout.lineBreak outer ++ ']' :: more))) =
      if Fits use (frames.length + 1) (heightOfItems rest) then
        resume use (settle (.array (done.reverse ++ item :: rest)) frames) more
      else .error .malformed
  | [], level, outer, item, done, frames, more, _ => by
    rw [heightOfItems, if_pos (fits_zero _), itemChars, comma, List.nil_append]
    simpa using readFrom_lastItem item done (all_isBlank_lineBreak layout outer) more
  | next :: others, level, outer, item, done, frames, more, h => by
    have hnext := readFrom_chars next level (.array (item :: done) :: frames)
      (comma others ++ (itemChars layout level others ++ (layout.lineBreak outer ++ ']' :: more)))
      h.1
    have hothers := readFrom_comma_itemChars others level outer next (item :: done) frames more h.2
    simp only [itemChars, List.append_assoc]
    rw [comma_cons, List.singleton_append, readFrom_nextItem,
      readFrom_blanks _ (all_isBlank_lineBreak layout _), hnext, settle, resume, hothers,
      List.reverse_cons, List.append_assoc, List.singleton_append]
    simp only [heightOfItems, fits_max, ite_and]
    rfl

/-- After a member, the others are read to the end of their object if they fit in it. -/
theorem readFrom_comma_memberChars : ∀ (rest : List (String × Json)) (level outer : Nat)
    (key : String) (value : Json) (done : List (String × Json)) (frames : List Frame)
    (more : List Char), RegularMembers rest → (Table.keys (done ++ (key, value) :: rest)).Nodup →
    readFrom use ⟨frames, .more value (.object done key)⟩
        (comma rest ++ (memberChars layout level rest ++
          (layout.lineBreak outer ++ '\x7d' :: more))) =
      if Fits use (frames.length + 1) (heightOfMembers rest) then
        resume use (settle (.object (done ++ (key, value) :: rest)) frames) more
      else .error .malformed
  | [], level, outer, key, value, done, frames, more, _, hkeys => by
    rw [heightOfMembers, if_pos (fits_zero _), memberChars, comma, List.nil_append]
    simpa [Table.insert_of_nodup hkeys] using
      readFrom_lastMember value done key (all_isBlank_lineBreak layout outer) more
  | (other, next) :: others, level, outer, key, value, done, frames, more, h, hkeys => by
    have hnext := readFrom_chars next level (.object (done ++ [(key, value)]) other :: frames)
      (comma others ++ (memberChars layout level others ++
        (layout.lineBreak outer ++ '\x7d' :: more))) h.1
    have hothers := readFrom_comma_memberChars others level outer other next
      (done ++ [(key, value)]) frames more h.2 (by simpa using hkeys)
    simp only [memberChars, List.append_assoc]
    rw [comma_cons, List.singleton_append, readFrom_nextMember, Table.insert_of_nodup hkeys,
      readMembers_member, hnext, settle, resume, hothers, List.append_assoc,
      List.singleton_append]
    simp only [heightOfMembers, fits_max, ite_and]
    rfl

end

/-- The text of a value is read as the value, unless too much is open in it at a time. -/
theorem parse_print {value : Json} (h : value.Regular) :
    parse (value.print layout) =
      if value.height ≤ maxOpen then .ok value else .error .malformed := by
  have hread := @readFrom_chars .kept layout value 0 [] [] h
  have hfits : Fits .kept 0 value.height ↔ value.height ≤ maxOpen := by
    simp only [Fits, reduceCtorEq, false_or]
    omega
  simp only [List.length_nil, hfits, List.append_nil] at hread
  rw [parse, read, print, String.toList_ofList, hread]
  split_ifs <;> rfl

/-- Values with the same text are the same. The reader tells them apart at any height if it does not
keep count of what is open. -/
theorem print_inj {value other : Json} (hvalue : value.Regular) (hother : other.Regular)
    (h : value.print layout = other.print layout) : value = other := by
  have hread : ∀ {value : Json}, value.Regular →
      readFrom .skipped ⟨[], .value⟩ (value.chars layout 0) = .ok (value, []) := by
    intro value hregular
    have hchars := @readFrom_chars .skipped layout value 0 [] [] hregular
    rwa [List.append_nil, if_pos (.inl rfl)] at hchars
  have hchars : value.chars layout 0 = other.chars layout 0 := String.ofList_injective h
  have hsame := hread hvalue
  rw [hchars, hread hother] at hsame
  exact (Prod.mk.inj (Except.ok.inj hsame)).1.symm

end StyleTree.Json
