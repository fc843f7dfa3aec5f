import Mathlib.Tactic.SplitIfs
import StyleTree.Enclosure
import StyleTree.Text

namespace StyleTree

/-- Whether a character is one of those that stand between a name and its value. -/
def isJoint (c : Char) : Bool :=
  Text.isBlank c || c == ':'

/-- Whether a character decides what is enclosed. -/
def isDelimiter (c : Char) : Bool :=
  Enclosure.isQuote c || Enclosure.isOpener c || Enclosure.isCloser c || c == '\\'

theorem isJoint_of_isBlank {c : Char} (h : Text.isBlank c = true) : isJoint c = true := by
  rw [isJoint, h, Bool.true_or]

/-- A character that is neither a blank nor a colon is told apart from those that are. -/
theorem ne_of_isJoint {c d : Char} (h : isJoint c = true) (hd : isJoint d = false) : c ≠ d := by
  rintro rfl
  exact absurd (h.symm.trans hd) (by decide)

namespace Enclosure

/-- The enclosure after a text. -/
def after (enclosure : Enclosure) (text : List Char) : Enclosure :=
  text.foldl next enclosure

/-- No occurrence of a separator in a text is exposed. -/
def Hides (separator : Char) : Enclosure → List Char → Prop
  | _, [] => True
  | enclosure, c :: rest =>
    ¬(c = separator ∧ enclosure.exposes c = true) ∧ Hides separator (enclosure.next c) rest

theorem after_cons (enclosure : Enclosure) (c : Char) (text : List Char) :
    enclosure.after (c :: text) = (enclosure.next c).after text :=
  rfl

theorem after_append (enclosure : Enclosure) (text more : List Char) :
    enclosure.after (text ++ more) = (enclosure.after text).after more :=
  List.foldl_append

theorem hides_append {separator : Char} {enclosure : Enclosure} {text more : List Char} :
    enclosure.Hides separator (text ++ more) ↔
      enclosure.Hides separator text ∧ (enclosure.after text).Hides separator more := by
  induction text generalizing enclosure with
  | nil => simp [Hides, after]
  | cons c rest ih => rw [List.cons_append, Hides, Hides, ih, after_cons, and_assoc]

theorem hides_of_not_mem {separator : Char} {text : List Char} (h : separator ∉ text)
    (enclosure : Enclosure) : enclosure.Hides separator text := by
  induction text generalizing enclosure with
  | nil => trivial
  | cons c rest ih =>
    rw [List.mem_cons, not_or] at h
    exact ⟨fun heq => h.1 heq.1.symm, ih h.2 _⟩

/-- A text is cut at the first separator that is exposed. -/
theorem cut?_eq_some_iff {separator : Char} {enclosure : Enclosure}
    {text before rest : List Char} :
    cut? separator enclosure text = some (before, rest) ↔
      enclosure.Hides separator before ∧ (enclosure.after before).exposes separator = true ∧
        text = before ++ separator :: rest := by
  constructor
  · intro h
    refine and_assoc.1 ⟨?_, eq_append_of_cut? h⟩
    induction text generalizing enclosure before with
    | nil => simp [cut?] at h
    | cons c others ih =>
      rw [cut?] at h
      split_ifs at h with hc
      · obtain ⟨rfl, rfl⟩ : [] = before ∧ others = rest := by simpa using h
        exact ⟨trivial, hc.1 ▸ hc.2⟩
      · obtain ⟨⟨front, back⟩, hcut, heq⟩ := Option.map_eq_some_iff.1 h
        obtain ⟨rfl, rfl⟩ : c :: front = before ∧ back = rest := by simpa using heq
        obtain ⟨hhides, hexposes⟩ := ih hcut
        exact ⟨⟨hc, hhides⟩, hexposes⟩
  · rintro ⟨hhides, hexposes, rfl⟩
    induction before generalizing enclosure with
    | nil => rw [List.nil_append, cut?, if_pos ⟨rfl, hexposes⟩]
    | cons c others ih =>
      rw [List.cons_append, cut?, if_neg hhides.1, ih hhides.2 hexposes]
      rfl

/-! ### Blanks and colons -/

/-- A string is opened by a quote. -/
def IsSound (enclosure : Enclosure) : Prop :=
  ∀ quote ∈ enclosure.quote, isQuote quote = true

theorem IsSound.next {enclosure : Enclosure} (h : enclosure.IsSound) (c : Char) :
    (enclosure.next c).IsSound := by
  obtain ⟨depth, quote, _ | _⟩ := enclosure
  · cases quote with
    | none =>
      by_cases hquote : isQuote c = true <;> simp only [Enclosure.next, hquote] <;>
        split_ifs <;> simp_all [IsSound]
    | some opened =>
      simp only [Enclosure.next]
      split_ifs <;> simp_all [IsSound]
  · exact h

/-- An escape is all that a character can end which is no delimiter. -/
theorem next_of_isDelimiter_eq_false {enclosure : Enclosure} (h : enclosure.IsSound) {c : Char}
    (hc : isDelimiter c = false) : enclosure.next c = { enclosure with escaped := false } := by
  simp only [isDelimiter, Bool.or_eq_false_iff, beq_eq_false_iff_ne] at hc
  obtain ⟨⟨⟨hquote, hopener⟩, hcloser⟩, hbackslash⟩ := hc
  obtain ⟨depth, quote, _ | _⟩ := enclosure
  · cases quote with
    | none => simp [next, hbackslash, hquote, hopener, hcloser]
    | some opened =>
      -- What opened the string is a quote, so that it is not closed here.
      have hopened : c ≠ opened := by
        rintro rfl
        exact absurd (hquote.symm.trans (h c rfl)) (by decide)
      simp [next, hbackslash, hopened]
  · rfl

/-- An escape is all that a blank or a colon can end. -/
theorem next_joint {enclosure : Enclosure} (h : enclosure.IsSound) {c : Char}
    (hc : isJoint c = true) : enclosure.next c = { enclosure with escaped := false } := by
  have hplain : ∀ d, isJoint d = false → c ≠ d := fun d hd => ne_of_isJoint hc hd
  apply next_of_isDelimiter_eq_false h
  simp [isDelimiter, isQuote, isOpener, isCloser, hplain '"' (by decide), hplain '\'' (by decide),
    hplain '(' (by decide), hplain '[' (by decide), hplain ')' (by decide),
    hplain ']' (by decide), hplain '\\' (by decide)]

theorem isSound_default : ({} : Enclosure).IsSound := by
  simp [IsSound]

theorem IsSound.after {enclosure : Enclosure} (h : enclosure.IsSound) (text : List Char) :
    (enclosure.after text).IsSound := by
  induction text generalizing enclosure with
  | nil => exact h
  | cons c rest ih => exact ih (h.next c)

/-- Blanks and colons that no escape covers change nothing. -/
theorem after_joints {enclosure : Enclosure} (h : enclosure.IsSound)
    (hescaped : enclosure.escaped = false) {text : List Char}
    (htext : ∀ c ∈ text, isJoint c = true) : enclosure.after text = enclosure := by
  induction text with
  | nil => rfl
  | cons c rest ih =>
    obtain ⟨hc, hrest⟩ := List.forall_mem_cons.1 htext
    have hnext : enclosure.next c = enclosure := by
      rw [next_joint h hc, ← hescaped]
    rw [after_cons, hnext, ih hrest]

end Enclosure

end StyleTree
