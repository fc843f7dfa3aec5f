import StyleTree.Proofs.Enclosure
import StyleTree.Proofs.Token.Stream

namespace StyleTree

namespace Scan

/-- The scanner after a text. -/
def after (scan : Scan) (text : List Char) : Scan :=
  text.foldl next scan

/-- No character of a text ends a run in which the scanner stands before it. -/
def Passes : Scan → List Char → Prop
  | _, [] => True
  | scan, c :: rest => scan.ending? c = none ∧ (scan.next c).Passes rest

variable {scan : Scan}

theorem after_cons (c : Char) (text : List Char) :
    scan.after (c :: text) = (scan.next c).after text :=
  rfl

theorem after_append (text more : List Char) :
    scan.after (text ++ more) = (scan.after text).after more :=
  List.foldl_append

theorem passes_append {text more : List Char} :
    scan.Passes (text ++ more) ↔ scan.Passes text ∧ (scan.after text).Passes more := by
  induction text generalizing scan with
  | nil => simp [Passes, after]
  | cons c rest ih => rw [List.cons_append, Passes, Passes, ih, after_cons, and_assoc]

/-- A run is what passes up to the mark that ends it. -/
theorem run_eq_some_iff {input taken rest : List Char} {ending : Ending} :
    run scan input = some (taken, ending, rest) ↔
      scan.Passes taken ∧ (scan.after taken).ending? ending.mark = some ending ∧
        input = taken ++ ending.mark :: rest := by
  constructor
  · intro h
    refine and_assoc.1 ⟨?_, eq_append_of_run h⟩
    induction input generalizing scan taken with
    | nil => simp [run] at h
    | cons c others ih =>
      obtain ⟨rfl, hend, rfl⟩ | ⟨more, rfl, hpass, hrun⟩ := exists_of_run_cons h
      · refine ⟨trivial, ?_⟩
        rw [← eq_mark_of_ending? hend]
        exact hend
      · obtain ⟨hpasses, hend⟩ := ih hrun
        exact ⟨⟨hpass, hpasses⟩, hend⟩
  · rintro ⟨hpasses, hending, rfl⟩
    induction taken generalizing scan with
    | nil =>
      rw [List.nil_append, run, show scan.ending? ending.mark = some ending from hending]
    | cons c others ih =>
      rw [List.cons_append, run, hpasses.1, ih hpasses.2 hending]
      rfl

/-- Nothing ends a run in a text exactly if the scanner passes over all of it. -/
theorem run_eq_none_iff {input : List Char} : run scan input = none ↔ scan.Passes input := by
  induction input generalizing scan with
  | nil => exact iff_of_true rfl trivial
  | cons c rest ih =>
    rw [run, Passes]
    cases hending : scan.ending? c with
    | some ending => simp
    | none => simp [ih]

theorem run_append_of_passes {text : List Char} (h : scan.Passes text) (rest : List Char) :
    run scan (text ++ rest) = (run (scan.after text) rest).map fun (taken, ending, after) =>
      (text ++ taken, ending, after) := by
  induction text generalizing scan with
  | nil => exact Option.map_id'.symm
  | cons c others ih =>
    rw [List.cons_append, run, h.1, ih h.2, Option.map_map, after_cons]
    rfl

/-! ### Outside of comments -/

/-- The enclosure before the comment that a character opens, if it opens one. -/
def opened? : Scan → Char → Option Enclosure
  | .slash enclosure, c => if c = '*' then some enclosure else none
  | _, _ => none

theorem enclosure?_text (enclosure : Enclosure) : (text enclosure).enclosure? = some enclosure :=
  rfl

theorem opened?_eq_some {c : Char} {enclosure : Enclosure}
    (h : scan.opened? c = some enclosure) : scan = .slash enclosure ∧ c = '*' := by
  cases scan <;> simp_all [opened?]

theorem opened?_eq_none (h : scan.enclosure? = none) (c : Char) : scan.opened? c = none := by
  cases scan with
  | slash enclosure => simp [enclosure?] at h
  | _ => rfl

theorem opened?_of_ne_star {c : Char} (h : c ≠ '*') : scan.opened? c = none := by
  cases scan with
  | slash enclosure => exact if_neg h
  | _ => rfl

theorem opened?_nextInText {c d : Char} {enclosure : Enclosure}
    (h : c = '/' → enclosure.inString = false → d ≠ '*') :
    (nextInText enclosure c).opened? d = none := by
  unfold nextInText
  split_ifs with hslash
  · exact if_neg (h hslash.1 hslash.2)
  · rfl

theorem enclosure?_nextInText (enclosure : Enclosure) (c : Char) :
    (nextInText enclosure c).enclosure? = some (enclosure.next c) := by
  unfold nextInText
  split_ifs with hslash
  · rw [hslash.1]
    rfl
  · rfl

theorem next_eq_nextInText {enclosure : Enclosure} (h : scan.enclosure? = some enclosure) {c : Char}
    (hc : scan.opened? c = none) : scan.next c = nextInText enclosure c := by
  cases scan with
  | text current =>
    obtain rfl := Option.some.inj h
    rfl
  | slash current =>
    obtain rfl := Option.some.inj h
    have hstar : c ≠ '*' := by simpa [opened?] using hc
    rw [next, if_neg hstar]
  | comment _ => simp [enclosure?] at h
  | star _ => simp [enclosure?] at h

theorem next_eq_text {enclosure : Enclosure} (h : scan.enclosure? = some enclosure) {c : Char}
    (hslash : c ≠ '/') (hstar : c ≠ '*') : scan.next c = .text (enclosure.next c) := by
  rw [next_eq_nextInText h (opened?_of_ne_star hstar), nextInText, if_neg fun hc => hslash hc.1]

/-- A character that opens no comment is read as it would be without comments. -/
theorem enclosure?_next {enclosure : Enclosure} (h : scan.enclosure? = some enclosure) {c : Char}
    (hc : scan.opened? c = none) : (scan.next c).enclosure? = some (enclosure.next c) := by
  rw [next_eq_nextInText h hc, enclosure?_nextInText]

/-! ### Blanks and colons -/

/-- All strings around the scanner are opened by quotes. -/
def IsSound : Scan → Prop
  | .text enclosure => enclosure.IsSound
  | .slash enclosure => enclosure.IsSound
  | .comment enclosure => enclosure.IsSound
  | .star enclosure => enclosure.IsSound

theorem isSound_start : start.IsSound := by
  simp [IsSound, start, Enclosure.IsSound]

theorem IsSound.nextInText {enclosure : Enclosure} (h : enclosure.IsSound) (c : Char) :
    (nextInText enclosure c).IsSound := by
  unfold Scan.nextInText
  split_ifs
  · exact h
  · exact h.next c

theorem IsSound.next (h : scan.IsSound) (c : Char) : (scan.next c).IsSound := by
  cases scan with
  | text enclosure => exact nextInText h c
  | slash enclosure =>
    rw [Scan.next]
    split_ifs
    · exact h
    · exact nextInText (Enclosure.IsSound.next h '/') c
  | comment enclosure =>
    rw [Scan.next]
    split_ifs <;> exact h
  | star enclosure =>
    rw [Scan.next]
    split_ifs <;> exact h

theorem IsSound.after (h : scan.IsSound) (text : List Char) : (scan.after text).IsSound := by
  induction text generalizing scan with
  | nil => exact h
  | cons c rest ih => exact ih (h.next c)

/-- Whether an escape covers the next character. -/
def escapes (scan : Scan) : Bool :=
  scan.enclosure?.any Enclosure.escaped

/-- Where the scanner stands after blanks and colons. -/
def settled : Scan → Scan
  | .text enclosure => .text { enclosure with escaped := false }
  | .slash enclosure => .text { enclosure.next '/' with escaped := false }
  | .comment enclosure => .comment enclosure
  | .star enclosure => .comment enclosure

theorem settled_settled (scan : Scan) : scan.settled.settled = scan.settled := by
  cases scan <;> rfl

theorem next_joint (h : scan.IsSound) {c : Char} (hc : isJoint c = true) :
    scan.next c = scan.settled := by
  have hslash : c ≠ '/' := ne_of_isJoint hc (by decide)
  have hstar : c ≠ '*' := ne_of_isJoint hc (by decide)
  cases scan with
  | text enclosure => simp [next, nextInText, hslash, settled, Enclosure.next_joint h hc]
  | slash enclosure =>
    have hnext := Enclosure.next_joint (Enclosure.IsSound.next h '/') hc
    simp [next, nextInText, hslash, hstar, settled, hnext]
  | comment enclosure => simp [next, hstar, settled]
  | star enclosure => simp [next, hslash, hstar, settled]

/-- After any number of blanks and colons, the scanner stands where it stands after one. -/
theorem after_joints (h : scan.IsSound) {text : List Char} (hne : text ≠ [])
    (htext : ∀ c ∈ text, isJoint c = true) : scan.after text = scan.settled := by
  induction text generalizing scan with
  | nil => exact absurd rfl hne
  | cons c rest ih =>
    obtain ⟨hc, hrest⟩ := List.forall_mem_cons.1 htext
    rw [after_cons]
    rcases rest with _ | ⟨d, rest⟩
    · exact next_joint h hc
    · rw [ih (h.next c) (List.cons_ne_nil d rest) hrest, next_joint h hc, settled_settled]

theorem passes_joints {text : List Char} (htext : ∀ c ∈ text, isJoint c = true) :
    scan.Passes text := by
  induction text generalizing scan with
  | nil => trivial
  | cons c rest ih =>
    obtain ⟨hc, hrest⟩ := List.forall_mem_cons.1 htext
    have hopening : c ≠ '\x7b' := ne_of_isJoint hc (by decide)
    have hclosing : c ≠ '\x7d' := ne_of_isJoint hc (by decide)
    have hsemicolon : c ≠ ';' := ne_of_isJoint hc (by decide)
    refine ⟨?_, ih hrest⟩
    cases henclosure : scan.enclosure? with
    | none => simp [ending?, henclosure]
    | some enclosure => simp [ending?, henclosure, hopening, hclosing, hsemicolon]

/-- Blanks and colons in the middle of a text may be replaced by others. -/
theorem after_congr_joints (h : scan.IsSound) {joints others : List Char}
    (hjoints : joints ≠ [] ∧ ∀ c ∈ joints, isJoint c = true)
    (hothers : others ≠ [] ∧ ∀ c ∈ others, isJoint c = true) (front back : List Char) :
    scan.after (front ++ joints ++ back) = scan.after (front ++ others ++ back) := by
  simp only [after_append]
  rw [after_joints (h.after front) hjoints.1 hjoints.2,
    after_joints (h.after front) hothers.1 hothers.2]

theorem Passes.congr_joints (h : scan.IsSound) {joints others : List Char}
    (hjoints : joints ≠ [] ∧ ∀ c ∈ joints, isJoint c = true)
    (hothers : others ≠ [] ∧ ∀ c ∈ others, isJoint c = true) {front back : List Char}
    (hpasses : scan.Passes (front ++ joints ++ back)) :
    scan.Passes (front ++ others ++ back) := by
  obtain ⟨hleft, hback⟩ := passes_append.1 hpasses
  rw [after_append, after_joints (h.after front) hjoints.1 hjoints.2] at hback
  refine passes_append.2
    ⟨passes_append.2 ⟨(passes_append.1 hleft).1, passes_joints hothers.2⟩, ?_⟩
  rwa [after_append, after_joints (h.after front) hothers.1 hothers.2]

/-- Blanks and colons leave all marks in force, unless an escape covers the first of them. -/
theorem ending?_settled (h : scan.escapes = false) (c : Char) :
    scan.settled.ending? c = scan.ending? c := by
  have hsame : ∀ enclosure : Enclosure, enclosure.escaped = false →
      { enclosure with escaped := false } = enclosure := by
    rintro ⟨depth, quote, escaped⟩ rfl
    rfl
  have henclosure : scan.settled.enclosure? = scan.enclosure? := by
    cases scan with
    | text enclosure => exact congrArg some (hsame _ (by simpa [escapes, enclosure?] using h))
    | slash enclosure => exact congrArg some (hsame _ (by simpa [escapes, enclosure?] using h))
    | comment enclosure => rfl
    | star enclosure => rfl
  rw [ending?, ending?, henclosure]

/-- No escape covers an opening brace. -/
theorem ending?_settled_opening (scan : Scan) :
    scan.settled.ending? '\x7b' = scan.ending? '\x7b' := by
  cases scan <;> rfl

end Scan

end StyleTree
