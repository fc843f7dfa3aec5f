import StyleTree.Text

namespace StyleTree.Text

theorem exists_trimEnd_append (text : List Char) : ∃ blanks, trimEnd text ++ blanks = text := by
  obtain ⟨blanks, hblanks⟩ := List.dropWhile_suffix (l := text.reverse) isBlank
  refine ⟨blanks.reverse, ?_⟩
  rw [trimEnd, ← List.reverse_append, hblanks, List.reverse_reverse]

theorem trim_sublist (text : List Char) : (trim text).Sublist text := by
  obtain ⟨blanks, hblanks⟩ := exists_trimEnd_append (trimStart text)
  have hend : (trim text).Sublist (trimStart text) := by
    rw [← hblanks]
    exact List.sublist_append_left _ _
  exact hend.trans (List.dropWhile_sublist isBlank)

theorem trimmed_trim (text : List Char) : Trimmed (trim text) := by
  constructor
  · intro c hc
    obtain ⟨rest, hrest⟩ := exists_trimEnd_append (trimStart text)
    -- The first character is that of `trimStart text`, where dropping blanks came to an end.
    have hhead : (trimStart text).head? = some c := by
      rw [← hrest, List.head?_append, show (trimEnd (trimStart text)).head? = some c from hc]
      rfl
    have hnot := List.head?_dropWhile_not isBlank text
    rw [show (text.dropWhile isBlank).head? = some c from hhead] at hnot
    simpa using hnot
  · intro c hc
    have hnot := List.head?_dropWhile_not isBlank (trimStart text).reverse
    rw [trim, trimEnd, List.getLast?_reverse] at hc
    rw [show ((trimStart text).reverse.dropWhile isBlank).head? = some c from hc] at hnot
    simpa using hnot

theorem trimEnd_append_blanks (text : List Char) {blanks : List Char}
    (h : ∀ c ∈ blanks, isBlank c = true) : trimEnd (text ++ blanks) = trimEnd text := by
  rw [trimEnd, trimEnd, List.reverse_append, List.dropWhile_append_of_pos (by simpa using h)]

theorem Trimmed.trimEnd_eq {text : List Char} (h : Trimmed text) : trimEnd text = text := by
  have hdrop : text.reverse.dropWhile isBlank = text.reverse := by
    cases hreverse : text.reverse with
    | nil => rfl
    | cons c rest =>
      have hc : c ∈ text.getLast? := by simp [← List.head?_reverse, hreverse]
      rw [List.dropWhile_cons_of_neg (by simp [h.2 c hc])]
  rw [trimEnd, hdrop, List.reverse_reverse]

theorem Trimmed.trim_eq {text : List Char} (h : Trimmed text) : trim text = text := by
  have hstart : trimStart text = text := by
    cases text with
    | nil => rfl
    | cons c rest => exact List.dropWhile_cons_of_neg (by simp [h.1 c rfl])
  rw [trim, hstart, h.trimEnd_eq]

/-- Whatever stands between two trimmed texts is not at an end. -/
theorem Trimmed.append {front back : List Char} (hfront : Trimmed front) (hback : Trimmed back)
    (hempty : front ≠ []) (hnone : back ≠ []) (middle : List Char) :
    Trimmed (front ++ middle ++ back) := by
  obtain ⟨c, rest, rfl⟩ := List.exists_cons_of_ne_nil hempty
  refine ⟨fun d hd => hfront.1 d hd, fun d hd => hback.2 d ?_⟩
  rw [List.getLast?_append, List.getLast?_eq_some_getLast hnone] at hd
  rw [List.getLast?_eq_some_getLast hnone]
  exact hd

/-- Blanks behind a trimmed text are all that trimming takes away. -/
theorem Trimmed.trim_append_blanks {text blanks : List Char} (h : Trimmed text) (hne : text ≠ [])
    (hblanks : ∀ c ∈ blanks, isBlank c = true) : trim (text ++ blanks) = text := by
  obtain ⟨c, rest, rfl⟩ := List.exists_cons_of_ne_nil hne
  have hstart : trimStart (c :: rest ++ blanks) = c :: rest ++ blanks :=
    List.dropWhile_cons_of_neg (by simp [h.1 c rfl])
  rw [trim, hstart, trimEnd_append_blanks _ hblanks, h.trimEnd_eq]

/-- Trimming takes nothing but blanks away. -/
theorem exists_append_trim_append (text : List Char) :
    ∃ front back, (∀ c ∈ front, isBlank c = true) ∧ (∀ c ∈ back, isBlank c = true) ∧
      text = front ++ trim text ++ back := by
  refine ⟨text.takeWhile isBlank, ((trimStart text).reverse.takeWhile isBlank).reverse,
    fun c hc => List.all_eq_true.1 List.all_takeWhile c hc,
    fun c hc => List.all_eq_true.1 List.all_takeWhile c (List.mem_reverse.1 hc), ?_⟩
  have hend : trim text ++ ((trimStart text).reverse.takeWhile isBlank).reverse =
      trimStart text := by
    rw [trim, trimEnd, ← List.reverse_append, List.takeWhile_append_dropWhile,
      List.reverse_reverse]
  rw [List.append_assoc, hend, trimStart, List.takeWhile_append_dropWhile]

/-- A text that starts with no blank loses blanks at its end only. -/
theorem exists_trim_append {text : List Char} (h : ∀ c ∈ text.head?, isBlank c = false) :
    ∃ back, (∀ c ∈ back, isBlank c = true) ∧ text = trim text ++ back := by
  obtain ⟨front, back, hfront, hback, htext⟩ := exists_append_trim_append text
  cases front with
  | nil => exact ⟨back, hback, htext⟩
  | cons c front =>
    have hblank := hfront c (List.mem_cons_self ..)
    rw [h c (by rw [htext]; rfl)] at hblank
    exact absurd hblank Bool.false_ne_true

/-- A text that ends with no blank loses blanks at its start only. -/
theorem exists_append_trim {text : List Char} (h : ∀ c ∈ text.getLast?, isBlank c = false) :
    ∃ front, (∀ c ∈ front, isBlank c = true) ∧ text = front ++ trim text := by
  obtain ⟨front, back, hfront, hback, htext⟩ := exists_append_trim_append text
  rcases List.eq_nil_or_concat back with rfl | ⟨others, c, rfl⟩
  · exact ⟨front, hfront, by rwa [List.append_nil] at htext⟩
  · have hblank := hback c (by simp)
    rw [h c (by rw [htext]; simp)] at hblank
    exact absurd hblank Bool.false_ne_true

/-- A trimmed text and the blanks after it can be told apart. -/
theorem Trimmed.append_blanks_inj {text other blanks spaces : List Char}
    (htext : Trimmed text) (hother : Trimmed other) (hblanks : ∀ c ∈ blanks, isBlank c = true)
    (hspaces : ∀ c ∈ spaces, isBlank c = true) (h : text ++ blanks = other ++ spaces) :
    text = other ∧ blanks = spaces := by
  have heq : text = other := by
    rw [← htext.trimEnd_eq, ← trimEnd_append_blanks text hblanks, h,
      trimEnd_append_blanks other hspaces, hother.trimEnd_eq]
  subst heq
  exact ⟨rfl, List.append_cancel_left h⟩

end StyleTree.Text
