import StyleTree.Proofs.Comment

/-!
# What removing comments leaves

A comment is left exactly if a slash at the end of one text is joined with an asterisk at the start
of another, and what they open together is closed.
-/

namespace StyleTree.Comment

/-- A complete comment stands somewhere in the text. -/
def HasSpan (text : List Char) : Prop :=
  ∃ front inside back, text = front ++ '/' :: '*' :: (inside ++ '*' :: '/' :: back)

theorem not_hasSpan_nil : ¬HasSpan [] := by
  rintro ⟨front, inside, back, h⟩
  simp at h

theorem hasSpan_opening_iff {body : List Char} :
    HasSpan ('/' :: '*' :: body) ↔ close? body ≠ none := by
  constructor
  · rintro ⟨front, inside, back, h⟩
    match front with
    | [] =>
      obtain rfl : body = inside ++ '*' :: '/' :: back := by simpa using h
      exact close?_ne_none inside back
    | [_] => simp at h
    | _ :: _ :: front =>
      -- A comment that is opened later is closed behind its opening all the same.
      obtain ⟨-, -, rfl⟩ := by simpa using h
      have hclose := close?_ne_none (front ++ '/' :: '*' :: inside) back
      simpa using hclose
  · intro h
    obtain ⟨⟨inside, after⟩, hclose⟩ := Option.ne_none_iff_exists'.1 h
    exact ⟨[], inside, after, by rw [eq_append_of_close? hclose]; rfl⟩

theorem hasSpan_cons {c : Char} {rest : List Char} (h : ¬(c = '/' ∧ rest.head? = some '*')) :
    HasSpan (c :: rest) ↔ HasSpan rest := by
  constructor
  · rintro ⟨front, inside, back, hspan⟩
    cases front with
    | nil =>
      obtain ⟨rfl, rfl⟩ := List.cons.inj hspan
      exact absurd ⟨rfl, rfl⟩ h
    | cons d front => exact ⟨front, inside, back, (List.cons.inj hspan).2⟩
  · rintro ⟨front, inside, back, rfl⟩
    exact ⟨c :: front, inside, back, rfl⟩

/-- The last case of the definition of `stripChars`, as its equation lemma takes it. -/
theorem not_opening {c : Char} {rest : List Char}
    (h : ∀ body, c = '/' → rest = '*' :: body → False) :
    ¬(c = '/' ∧ rest.head? = some '*') := by
  rintro ⟨hc, hrest⟩
  obtain ⟨body, hbody⟩ := List.head?_eq_some_iff.1 hrest
  exact h body hc hbody

/-! ### What stays as it is -/

theorem length_stripChars_le (text : List Char) : (stripChars text).length ≤ text.length := by
  fun_induction stripChars text with
  | case1 => exact Nat.le_refl _
  | case2 body inside after hclose ih =>
    have hlength := length_lt_of_close? hclose
    simp only [List.length_cons]
    omega
  | case3 => exact Nat.le_refl _
  | case4 c rest _ ih => exact Nat.succ_le_succ ih

/-- Removing comments changes the texts with a complete comment, and no others. -/
theorem stripChars_eq_self_iff (text : List Char) : stripChars text = text ↔ ¬HasSpan text := by
  fun_induction stripChars text with
  | case1 => exact iff_of_true rfl not_hasSpan_nil
  | case2 body inside after hclose ih =>
    refine iff_of_false (fun heq => ?_) (not_not_intro (hasSpan_opening_iff.2 (by simp [hclose])))
    have hstrip := length_stripChars_le after
    have hlength := length_lt_of_close? hclose
    rw [heq, List.length_cons, List.length_cons] at hstrip
    omega
  | case3 body hclose => exact iff_of_true rfl (by simp [hasSpan_opening_iff, hclose])
  | case4 c rest hopen ih => rw [hasSpan_cons (not_opening hopen), ← ih, List.cons_inj_right]

/-! ### What is joined -/

/-- The texts around the comments that are removed, in order. There is always one more of them than
there are such comments. -/
def pieces : List Char → List (List Char)
  | [] => [[]]
  | '/' :: '*' :: rest =>
    match _ : close? rest with
    | some (_, after) => [] :: pieces after
    | none => ['/' :: '*' :: rest]
  | c :: rest => (pieces rest).modifyHead (c :: ·)
termination_by text => text.length
decreasing_by
  · have := length_lt_of_close? ‹_›
    simp only [List.length_cons]
    omega
  · simp only [List.length_cons]
    omega

/-- Removing comments makes another comment: a slash is joined with an asterisk, and what they open
is closed. -/
def Joins (text : List Char) : Prop :=
  ∃ before after body, pieces text = before ++ after ∧ before.flatten.getLast? = some '/' ∧
    after.flatten = '*' :: body ∧ close? body ≠ none

theorem pieces_cons {c : Char} {rest : List Char} (h : ¬(c = '/' ∧ rest.head? = some '*')) :
    pieces (c :: rest) = (pieces rest).modifyHead (c :: ·) := by
  apply pieces.eq_3
  rintro tail rfl rfl
  exact h ⟨rfl, rfl⟩

theorem pieces_comment {body inside after : List Char}
    (h : close? body = some (inside, after)) :
    pieces ('/' :: '*' :: body) = [] :: pieces after := by
  rw [pieces]
  split
  · rename_i hclose
    rw [h] at hclose
    obtain ⟨-, rfl⟩ : inside = _ ∧ after = _ := by simpa using hclose
    rfl
  · rename_i hclose
    simp [h] at hclose

theorem pieces_unclosed {body : List Char} (h : close? body = none) :
    pieces ('/' :: '*' :: body) = ['/' :: '*' :: body] := by
  rw [pieces]
  split
  · rename_i hclose
    simp [h] at hclose
  · rfl

theorem pieces_ne_nil (text : List Char) : pieces text ≠ [] := by
  fun_induction pieces text with
  | case1 => exact List.cons_ne_nil _ _
  | case2 => exact List.cons_ne_nil _ _
  | case3 => exact List.cons_ne_nil _ _
  | case4 c rest _ ih => simpa [List.modifyHead_eq_nil_iff] using ih

/-- The first of the pieces is the front of the text. -/
theorem exists_append_of_pieces_eq_cons {text piece : List Char} {others : List (List Char)}
    (h : pieces text = piece :: others) : ∃ back, text = piece ++ back := by
  fun_induction pieces text generalizing piece others with
  | case1 => exact ⟨[], by rw [← (List.cons.inj h).1, List.append_nil]⟩
  | case2 => exact ⟨_, by rw [← (List.cons.inj h).1, List.nil_append]⟩
  | case3 => exact ⟨[], by rw [← (List.cons.inj h).1, List.append_nil]⟩
  | case4 c rest _ ih =>
    obtain ⟨first, tail, hpieces⟩ := List.exists_cons_of_ne_nil (pieces_ne_nil rest)
    obtain ⟨back, hback⟩ := ih hpieces
    rw [hpieces] at h
    obtain ⟨rfl, -⟩ := List.cons.inj h
    exact ⟨back, congrArg (c :: ·) hback⟩

theorem flatten_pieces (text : List Char) : (pieces text).flatten = stripChars text := by
  fun_induction pieces text with
  | case1 => simp [stripChars]
  | case2 body inside after hclose ih => rw [stripChars_comment hclose, List.flatten_cons, ih]; rfl
  | case3 body hclose => rw [stripChars_unclosed hclose, List.flatten_singleton]
  | case4 c rest hopen ih =>
    obtain ⟨piece, others, hpieces⟩ := List.exists_cons_of_ne_nil (pieces_ne_nil rest)
    rw [stripChars_cons (not_opening hopen), ← ih, hpieces]
    rfl

/-- A character that comes to the start of a text only as comments are removed was behind one of
them. -/
theorem exists_pieces_eq_nil_cons {text body : List Char} {c : Char}
    (hstrip : stripChars text = c :: body) (hhead : text.head? ≠ some c) :
    ∃ others, pieces text = [] :: others := by
  fun_cases pieces text with
  | case1 => simp [stripChars] at hstrip
  | case2 => exact ⟨_, rfl⟩
  | case3 body hclose =>
    rw [stripChars_unclosed hclose] at hstrip
    exact absurd (congrArg some (List.cons.inj hstrip).1) hhead
  | case4 d rest hopen =>
    rw [stripChars_cons (not_opening hopen)] at hstrip
    exact absurd (congrArg some (List.cons.inj hstrip).1) hhead

theorem Joins.comment {body inside after : List Char} (h : Joins after)
    (hclose : close? body = some (inside, after)) : Joins ('/' :: '*' :: body) := by
  obtain ⟨front, back, joined, hpieces, hlast, hback, hspan⟩ := h
  refine ⟨[] :: front, back, joined, ?_, hlast, hback, hspan⟩
  rw [pieces_comment hclose, hpieces]
  rfl

theorem Joins.cons {c : Char} {rest : List Char} (h : Joins rest)
    (hc : ¬(c = '/' ∧ rest.head? = some '*')) : Joins (c :: rest) := by
  obtain ⟨front, back, joined, hpieces, hlast, hback, hspan⟩ := h
  cases front with
  | nil => simp at hlast
  | cons piece front =>
    refine ⟨(c :: piece) :: front, back, joined, ?_, ?_, hback, hspan⟩
    · rw [pieces_cons hc, hpieces]
      rfl
    · rw [List.flatten_cons] at hlast ⊢
      rw [List.cons_append, List.getLast?_cons, hlast]
      rfl

/-- A comment is left exactly where one was made. -/
theorem hasSpan_stripChars_iff (text : List Char) : HasSpan (stripChars text) ↔ Joins text := by
  constructor
  · intro h
    induction text using stripChars.induct with
    | case1 =>
      rw [stripChars] at h
      exact absurd h not_hasSpan_nil
    | case2 body inside after hclose ih =>
      rw [stripChars_comment hclose] at h
      exact (ih h).comment hclose
    | case3 body hclose =>
      rw [stripChars_unclosed hclose, hasSpan_opening_iff] at h
      exact absurd hclose h
    | case4 c rest hopen ih =>
      have hc := not_opening hopen
      rw [stripChars_cons hc] at h
      by_cases hjoint : c = '/' ∧ (stripChars rest).head? = some '*'
      · obtain ⟨rfl, hhead⟩ := hjoint
        obtain ⟨body, hbody⟩ := List.head?_eq_some_iff.1 hhead
        -- The asterisk does not follow the slash in the text itself.
        obtain ⟨others, hpieces⟩ := exists_pieces_eq_nil_cons hbody fun hrest => hc ⟨rfl, hrest⟩
        rw [hbody, hasSpan_opening_iff] at h
        refine ⟨[['/']], others, body, ?_, rfl, ?_, h⟩
        · rw [pieces_cons hc, hpieces]
          rfl
        · rw [← hbody, ← flatten_pieces, hpieces]
          rfl
      · exact (ih ((hasSpan_cons hjoint).1 h)).cons hc
  · rintro ⟨before, after, body, hpieces, hlast, hafter, hclose⟩
    obtain ⟨front, hfront⟩ := List.getLast?_eq_some_iff.1 hlast
    obtain ⟨more, inside, back, hspan⟩ := hasSpan_opening_iff.2 hclose
    refine ⟨front ++ more, inside, back, ?_⟩
    rw [← flatten_pieces, hpieces, List.flatten_append, hfront, hafter, List.append_assoc,
      List.append_assoc, ← hspan]
    rfl

/-- Removing comments twice does what removing them once does exactly if no complete comment is
left, and one is left exactly if removing comments made it. -/
theorem strip_strip_iff (css : String) :
    (strip (strip css) = strip css ↔ ¬HasSpan (strip css).toList) ∧
      (HasSpan (strip css).toList ↔ Joins css.toList) := by
  constructor
  · rw [← stripChars_eq_self_iff, ← String.toList_inj, strip, String.toList_ofList]
  · rw [strip, String.toList_ofList, hasSpan_stripChars_iff]

/-- An empty comment between a slash and an asterisk. Without it, they open another comment. -/
theorem strip_joined :
    strip "//**/* x */" = "/* x */" ∧ HasSpan (strip "//**/* x */").toList ∧
      strip (strip "//**/* x */") = "" := by
  have hstrip : strip "//**/* x */" = "/* x */" := by decide +kernel
  refine ⟨hstrip, ?_, by decide +kernel⟩
  rw [hstrip]
  exact ⟨[], [' ', 'x', ' '], [], rfl⟩

end StyleTree.Comment
