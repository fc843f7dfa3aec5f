import StyleTree.Proofs.Token.Balanced
import StyleTree.Proofs.Token.Separators

namespace StyleTree

namespace Scan

variable {scan : Scan} {enclosure : Enclosure}

/-- Whether a slash with an asterisk behind it would open a comment here: outside of comments and
strings. -/
def mayOpen (scan : Scan) : Bool :=
  scan.enclosure?.any fun enclosure => !enclosure.inString

theorem mayOpen_iff : scan.mayOpen = true ↔
    ∃ enclosure, scan.enclosure? = some enclosure ∧ enclosure.inString = false := by
  simp [mayOpen, Option.any_eq_true]

/-- A comment is opened outside of strings. -/
theorem after_opening (h : scan.enclosure? = some enclosure)
    (hstring : enclosure.inString = false) :
    scan.Passes ['/', '*'] ∧ scan.after ['/', '*'] = .comment enclosure := by
  have hnext : scan.next '/' = .slash enclosure := by
    rw [next_eq_nextInText h (opened?_of_ne_star (by decide)), nextInText, if_pos ⟨rfl, hstring⟩]
  refine ⟨⟨ending?_eq_none h (by decide) (fun h => absurd h (by decide)), ?_, trivial⟩, ?_⟩
  · rw [hnext]
    exact ending?_eq_none rfl (by decide) (fun h => absurd h (by decide))
  · rw [after_cons, hnext]
    rfl

/-- A comment that is closed is passed over, and the scanner is then where it was before. -/
theorem passes_comment (h : scan.enclosure? = some enclosure) (hstring : enclosure.inString = false)
    {body inside rest : List Char} (hclose : Comment.close? body = some (inside, rest)) :
    '/' :: '*' :: body = commentOf body ++ rest ∧ scan.Passes (commentOf body) ∧
      scan.after (commentOf body) = .text enclosure := by
  have hcomment : commentOf body = ['/', '*'] ++ (inside ++ ['*', '/']) := by
    rw [commentOf, hclose]
    rfl
  obtain ⟨hpasses, hopen⟩ := after_opening h hstring
  obtain ⟨hcovers, hend⟩ := covers_of_close? hclose enclosure
  rw [hcomment, passes_append, after_append, hopen, hend]
  exact ⟨by simp [Comment.eq_append_of_close? hclose], ⟨hpasses, hcovers.passes⟩, rfl⟩

/-- A comment that nothing closes is all that is left, and it is passed over. -/
theorem passes_unclosed (h : scan.enclosure? = some enclosure)
    (hstring : enclosure.inString = false) {body : List Char}
    (hclose : Comment.close? body = none) :
    '/' :: '*' :: body = commentOf body ∧ scan.Passes (commentOf body) := by
  have hcomment : commentOf body = ['/', '*'] ++ body := by
    rw [commentOf, hclose]
    rfl
  obtain ⟨hpasses, hopen⟩ := after_opening h hstring
  rw [hcomment, passes_append, hopen]
  exact ⟨rfl, hpasses, (covers_of_close?_eq_none hclose enclosure).passes⟩

theorem Covers.enclosure?_after {front back : List Char} {c : Char}
    (h : scan.Covers (front ++ c :: back)) : (scan.after front).enclosure? = none := by
  induction front generalizing scan with
  | nil => exact h.1
  | cons d rest ih => exact ih h.2

/-- The scanner does not leave a comment that nothing closes. -/
theorem enclosure?_after_of_close?_eq_none {body : List Char} (h : Comment.close? body = none)
    (enclosure : Enclosure) : ((comment enclosure).after body).enclosure? = none := by
  have hlonger : Comment.close? (body ++ [' ']) = none :=
    Comment.close?_append_eq_none h (by decide)
  exact (covers_of_close?_eq_none hlonger enclosure).enclosure?_after

/-- The scanner waits for an asterisk behind a slash where a comment can be opened. -/
theorem next_eq_slash {c : Char} (h : scan.next c = .slash enclosure) :
    c = '/' ∧ scan.enclosure? = some enclosure ∧ enclosure.inString = false := by
  have htext : ∀ {current : Enclosure}, nextInText current c = .slash enclosure →
      c = '/' ∧ some current = some enclosure ∧ enclosure.inString = false := by
    intro current hslash
    rw [nextInText] at hslash
    split_ifs at hslash with hc
    obtain rfl : current = enclosure := by simpa using hslash
    exact ⟨hc.1, rfl, hc.2⟩
  cases scan with
  | text current => exact htext h
  | slash current =>
    rw [next] at h
    split_ifs at h
    exact htext h
  | comment current =>
    rw [next] at h
    split_ifs at h
  | star current =>
    rw [next] at h
    split_ifs at h

/-- Where the scanner is in a comment, the comment was opened before and nothing has closed it
since. -/
theorem exists_opening {before : List Char} (h : (start.after before).enclosure? = none) :
    ∃ front taken enclosure, before = front ++ '/' :: '*' :: taken ∧
      (start.after front).enclosure? = some enclosure ∧ enclosure.inString = false ∧
      Comment.close? taken = none := by
  induction before using List.reverseRecOn with
  | nil => simp [start, after, enclosure?] at h
  | append_singleton before c ih =>
    by_cases hinside : (start.after before).enclosure? = none
    · obtain ⟨front, taken, enclosure, rfl, hfront, hstring, hclose⟩ := ih hinside
      refine ⟨front, taken ++ [c], enclosure, by simp, hfront, hstring, ?_⟩
      by_contra hne
      obtain ⟨⟨inside, back⟩, hsome⟩ := Option.ne_none_iff_exists'.1 hne
      -- The character would close the comment, and the scanner would leave it.
      have hbefore : front ++ '/' :: '*' :: taken ++ [c] =
          front ++ (['/', '*'] ++ (inside ++ ['*', '/'])) := by
        rw [← Comment.eq_append_of_close?_concat hclose hsome]
        simp
      rw [hbefore, after_append, after_append, (after_opening hfront hstring).2,
        (covers_of_close? hsome enclosure).2] at h
      exact absurd h (by simp [enclosure?])
    · obtain ⟨current, hcurrent⟩ := Option.ne_none_iff_exists'.1 hinside
      rw [after_append] at h
      cases hopened : (start.after before).opened? c with
      | none =>
        have hnext : ((start.after before).after [c]).enclosure? = some (current.next c) :=
          enclosure?_next hcurrent hopened
        simp [h] at hnext
      | some enclosure =>
        obtain ⟨hslash, rfl⟩ := opened?_eq_some hopened
        rcases List.eq_nil_or_concat before with rfl | ⟨front, last, rfl⟩
        · exact absurd hslash (by simp [start, after])
        · rw [List.concat_eq_append, after_append] at hslash
          obtain ⟨rfl, hfront, hstring⟩ := next_eq_slash hslash
          exact ⟨front, [], enclosure, by simp, hfront, hstring, rfl⟩

end Scan

/-- A comment of a text as the scanner of a run finds it: it is opened outside of comments and
strings, and it ends at the first closing behind its opening. -/
structure HoldsComment (text front inside back : List Char) : Prop where
  eq_append : text = front ++ '/' :: '*' :: (inside ++ '*' :: '/' :: back)
  mayOpen : (Scan.start.after front).mayOpen = true
  closes : Comment.close? (inside ++ '*' :: '/' :: back) = some (inside, back)

/-- The character behind `before` stands between the delimiters of a comment of the text. -/
def InComment (text before : List Char) : Prop :=
  ∃ front inside back taken, HoldsComment text front inside back ∧
    before = front ++ '/' :: '*' :: taken ∧ taken.length < inside.length

/-- Each comment that the scanner of a run opens in a text is closed in it. -/
def ClosesComments (text : List Char) : Prop :=
  ∀ front body, text = front ++ '/' :: '*' :: body → (Scan.start.after front).mayOpen = true →
    ∃ inside back, body = inside ++ '*' :: '/' :: back

/-- All comments are closed if the scanner is outside of them at the end. -/
theorem closesComments_iff {text : List Char} :
    ClosesComments text ↔ (Scan.start.after text).enclosure? ≠ none := by
  constructor
  · intro h hnone
    obtain ⟨front, taken, enclosure, rfl, hfront, hstring, hclose⟩ := Scan.exists_opening hnone
    obtain ⟨inside, back, rfl⟩ := h front taken rfl (Scan.mayOpen_iff.2 ⟨_, hfront, hstring⟩)
    exact Comment.close?_ne_none inside back hclose
  · rintro h front body rfl hopen
    obtain ⟨enclosure, hfront, hstring⟩ := Scan.mayOpen_iff.1 hopen
    have hafter : Scan.start.after (front ++ (['/', '*'] ++ body)) =
        (Scan.comment enclosure).after body := by
      rw [Scan.after_append, Scan.after_append, (Scan.after_opening hfront hstring).2]
    have hclose : Comment.close? body ≠ none := by
      intro hnone
      exact h ((congrArg Scan.enclosure? hafter).trans
        (Scan.enclosure?_after_of_close?_eq_none hnone enclosure))
    obtain ⟨⟨inside, back⟩, hsome⟩ := Option.ne_none_iff_exists'.1 hclose
    exact ⟨inside, back, Comment.eq_append_of_close? hsome⟩

/-- Between the delimiters of comments, the scanner is in a comment. -/
theorem InComment.enclosure?_eq_none {before rest : List Char} {c : Char}
    (h : InComment (before ++ c :: rest) before) :
    (Scan.start.after before).enclosure? = none := by
  obtain ⟨front, inside, back, taken, ⟨htext, hopen, hclose⟩, rfl, hlength⟩ := h
  obtain ⟨enclosure, hfront, hstring⟩ := Scan.mayOpen_iff.1 hopen
  have hbody : taken ++ c :: rest = inside ++ '*' :: '/' :: back := by simpa using htext
  obtain ⟨more, rfl⟩ : taken <+: inside :=
    List.prefix_of_prefix_length_le ⟨_, hbody⟩ (List.prefix_append _ _) hlength.le
  obtain ⟨d, tail, rfl⟩ : ∃ d tail, more = d :: tail := by
    refine List.exists_cons_of_ne_nil ?_
    rintro rfl
    simp at hlength
  have hcovers := (Scan.covers_of_close? hclose enclosure).1
  rw [List.append_assoc, List.cons_append] at hcovers
  have hafter : Scan.start.after (front ++ (['/', '*'] ++ taken)) =
      (Scan.comment enclosure).after taken := by
    rw [Scan.after_append, Scan.after_append, (Scan.after_opening hfront hstring).2]
  exact (congrArg Scan.enclosure? hafter).trans hcovers.enclosure?_after

/-- The scanner is in a comment exactly at the places inside of comments, at characters that cannot
be a part of a closing. -/
theorem inComment_iff {before rest : List Char} {c : Char}
    (hclosed : ClosesComments (before ++ c :: rest)) (hstar : c ≠ '*') (hslash : c ≠ '/') :
    InComment (before ++ c :: rest) before ↔ (Scan.start.after before).enclosure? = none := by
  refine ⟨InComment.enclosure?_eq_none, fun hnone => ?_⟩
  obtain ⟨front, taken, enclosure, rfl, hfront, hstring, hclose⟩ := Scan.exists_opening hnone
  have hopen : (Scan.start.after front).mayOpen = true := Scan.mayOpen_iff.2 ⟨_, hfront, hstring⟩
  obtain ⟨others, more, hothers⟩ := hclosed front (taken ++ c :: rest) (by simp) hopen
  obtain ⟨⟨inside, back⟩, hsome⟩ := Option.ne_none_iff_exists'.1
    (hothers ▸ Comment.close?_ne_none others more)
  have hbody := Comment.eq_append_of_close? hsome
  refine ⟨front, inside, back, taken, ⟨by simp [hbody], hopen, hbody ▸ hsome⟩, rfl, ?_⟩
  -- The closing is neither before the character nor does it hold it.
  rcases List.append_eq_append_iff.1 hbody with ⟨between, rfl, hrest⟩ | ⟨between, rfl, hrest⟩
  · cases between with
    | nil => exact absurd (List.cons.inj hrest).1 hstar
    | cons d tail => simp
  · match between with
    | [] => exact absurd (List.cons.inj hrest).1.symm hstar
    | [_] =>
      obtain ⟨-, rfl, -⟩ : _ ∧ '/' = c ∧ _ := by simpa using hrest
      exact absurd rfl hslash
    | _ :: _ :: tail =>
      obtain ⟨rfl, rfl, -⟩ : '*' = _ ∧ '/' = _ ∧ _ := by simpa using hrest
      exact absurd hclose (Comment.close?_ne_none inside tail)

end StyleTree
