import Mathlib.Data.List.Infix
import StyleTree.Comment

namespace StyleTree.Comment

/-- A slash with an asterisk after it stands somewhere in the text. -/
def Opens (text : List Char) : Prop :=
  ['/', '*'] <:+: text

instance : DecidablePred Opens := fun text =>
  inferInstanceAs (Decidable (['/', '*'] <:+: text))

theorem opens_cons {c : Char} {rest : List Char} :
    Opens (c :: rest) ↔ (c = '/' ∧ rest.head? = some '*') ∨ Opens rest := by
  rw [Opens, List.infix_cons_iff, Opens]
  apply or_congr_left
  cases rest with
  | nil => simp
  | cons d rest => simp [List.cons_prefix_cons, eq_comm]

theorem opens_append_of_not_slash {front : List Char} (h : ∀ c ∈ front, c ≠ '/')
    (text : List Char) : Opens (front ++ text) ↔ Opens text := by
  induction front with
  | nil => rfl
  | cons c rest ih =>
    obtain ⟨hc, hrest⟩ := List.forall_mem_cons.1 h
    rw [List.cons_append, opens_cons, ih hrest]
    simp [hc]

theorem opens_append_of_not_star {back : List Char} (h : ∀ c ∈ back, c ≠ '*')
    (text : List Char) : Opens (text ++ back) ↔ Opens text := by
  induction text with
  | nil =>
    refine ⟨fun hopens => ?_, fun hopens => ?_⟩
    · exact absurd rfl (h '*' (List.IsInfix.subset hopens (by simp)))
    · exact absurd (List.infix_nil.1 hopens) (by simp)
  | cons c rest ih =>
    rw [List.cons_append, opens_cons, opens_cons, ih]
    cases rest with
    | cons d rest => simp
    | nil =>
      have hhead : back.head? ≠ some '*' := by
        intro hhead
        exact h '*' (List.mem_of_mem_head? hhead) rfl
      simp [hhead]

/-! ### Closing -/

theorem close?_append {text inside after : List Char}
    (h : close? text = some (inside, after)) (more : List Char) :
    close? (text ++ more) = some (inside, after ++ more) := by
  fun_induction close? text generalizing inside with
  | case1 => simp at h
  | case2 rest =>
    obtain ⟨rfl, rfl⟩ : [] = inside ∧ rest = after := by simpa using h
    simp [close?]
  | case3 c rest hne ih =>
    obtain ⟨⟨i, a⟩, hclose, heq⟩ := Option.map_eq_some_iff.1 h
    obtain ⟨rfl, rfl⟩ : c :: i = inside ∧ a = after := by simpa using heq
    rw [List.cons_append, close?, ih hclose]
    · rfl
    · -- A closing over the end of `text` would leave the asterisk as its last character.
      rintro tail rfl hrest
      cases rest with
      | nil => simp [close?] at hclose
      | cons d rest =>
        obtain ⟨rfl, -⟩ : d = '/' ∧ rest ++ more = tail := by simpa using hrest
        exact hne rest rfl rfl

theorem close?_ne_none (inside after : List Char) :
    close? (inside ++ '*' :: '/' :: after) ≠ none := by
  induction inside with
  | nil => simp [close?]
  | cons c rest ih =>
    rw [List.cons_append]
    unfold close?
    split <;> simp_all

/-- A comment that one more character closes ends with that character. -/
theorem eq_append_of_close?_concat {text inside after : List Char} {c : Char}
    (h : close? text = none) (hclose : close? (text ++ [c]) = some (inside, after)) :
    text ++ [c] = inside ++ ['*', '/'] := by
  have hsplit := eq_append_of_close? hclose
  rcases List.eq_nil_or_concat after with rfl | ⟨others, last, rfl⟩
  · exact hsplit
  · obtain ⟨rfl, -⟩ : text = inside ++ '*' :: '/' :: others ∧ [c] = [last] := by
      refine List.append_inj' ?_ rfl
      rw [hsplit]
      simp
    exact absurd h (close?_ne_none inside others)

/-- Without a slash, nothing that follows closes a comment. -/
theorem close?_append_eq_none {body tail : List Char} (h : close? body = none)
    (htail : '/' ∉ tail) : close? (body ++ tail) = none := by
  by_contra hne
  obtain ⟨⟨inside, after⟩, hclose⟩ := Option.ne_none_iff_exists'.1 hne
  have hsplit : body ++ tail = (inside ++ ['*', '/']) ++ after := by
    simpa using eq_append_of_close? hclose
  rcases List.append_eq_append_iff.1 hsplit with ⟨front, hfront, rfl⟩ | ⟨back, rfl, -⟩
  · rcases List.eq_nil_or_concat front with rfl | ⟨others, last, rfl⟩
    · rw [List.append_nil] at hfront
      exact close?_ne_none inside [] (hfront ▸ h)
    · -- The last character of the closing would be in the tail.
      have hlast := congrArg List.getLast? hfront
      obtain rfl : '/' = last := by simpa using hlast
      exact htail (by simp)
  · rw [List.append_assoc] at h
    exact close?_ne_none inside back h

/-! ### Removing -/

theorem stripChars_cons {c : Char} {rest : List Char}
    (h : ¬(c = '/' ∧ rest.head? = some '*')) : stripChars (c :: rest) = c :: stripChars rest := by
  apply stripChars.eq_3
  rintro tail rfl rfl
  exact h ⟨rfl, rfl⟩

theorem stripChars_comment {body inside after : List Char}
    (h : close? body = some (inside, after)) :
    stripChars ('/' :: '*' :: body) = stripChars after := by
  rw [stripChars]
  split
  · rename_i hclose
    rw [h] at hclose
    obtain ⟨-, rfl⟩ : inside = _ ∧ after = _ := by simpa using hclose
    rfl
  · rename_i hclose
    simp [h] at hclose

theorem stripChars_unclosed {body : List Char} (h : close? body = none) :
    stripChars ('/' :: '*' :: body) = '/' :: '*' :: body := by
  rw [stripChars]
  split
  · rename_i hclose
    simp [h] at hclose
  · rfl

/-- The front of a text stays if no comment is opened in it, nor by its last character together with
the next one. -/
theorem stripChars_append {front back : List Char} (h : ¬Opens (front ++ back.take 1)) :
    stripChars (front ++ back) = front ++ stripChars back := by
  induction front with
  | nil => rfl
  | cons c rest ih =>
    rw [List.cons_append, opens_cons, not_or] at h
    have hhead : (rest ++ back).head? = (rest ++ back.take 1).head? := by
      cases rest with
      | nil => cases back <;> rfl
      | cons => rfl
    rw [List.cons_append, stripChars_cons (hhead ▸ h.1), ih h.2, List.cons_append]

theorem stripChars_eq_self {text : List Char} (h : ¬Opens text) : stripChars text = text := by
  have hstrip : stripChars (text ++ []) = text ++ stripChars [] :=
    stripChars_append (by rwa [List.take_nil, List.append_nil])
  rwa [stripChars, List.append_nil] at hstrip

end StyleTree.Comment
