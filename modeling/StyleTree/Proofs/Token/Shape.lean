import StyleTree.Proofs.Token.Comments
import StyleTree.Proofs.Token.Line

namespace StyleTree

/-- The shape of the texts of selectors and declarations. -/
structure IsTokenText (text : List Char) : Prop where
  ne_nil : text ≠ []
  /-- Neither the first nor the last character is a blank. -/
  trimmed : Text.Trimmed text
  head_ne : ∀ c ∈ text.head?, c ≠ '\x7b' ∧ c ≠ '\x7d' ∧ c ≠ ';'
  not_comment : ¬['/', '*'] <+: text
  /-- What the scanner takes for the opening of a comment has a closing. -/
  closesComments : ClosesComments text
  /-- All braces stand in comments. -/
  braces : ∀ before brace rest, text = before ++ brace :: rest → isBrace brace = true →
    InComment text before
  /-- All semicolons stand in comments or are not exposed where the scanner finds them. -/
  semicolons : ∀ before rest, text = before ++ ';' :: rest →
    InComment text before ∨ ∃ enclosure,
      (Scan.start.after before).enclosure? = some enclosure ∧ enclosure.exposes ';' = false

namespace Scan

variable {scan : Scan}

/-- The scanner passes over a text if each character ends no run where it finds it. -/
theorem passes_iff {text : List Char} : scan.Passes text ↔
    ∀ before c rest, text = before ++ c :: rest → (scan.after before).ending? c = none := by
  induction text generalizing scan with
  | nil => simp [Passes]
  | cons d others ih =>
    rw [Passes, ih]
    constructor
    · rintro ⟨hfirst, hothers⟩ before c rest htext
      cases before with
      | nil =>
        obtain ⟨rfl, -⟩ := List.cons.inj htext
        exact hfirst
      | cons e before =>
        obtain ⟨rfl, hsplit⟩ := List.cons.inj htext
        exact hothers before c rest hsplit
    · intro h
      exact ⟨h [] d others rfl, fun before c rest hsplit =>
        h (d :: before) c rest (congrArg (d :: ·) hsplit)⟩

/-- Outside of comments, a brace ends the run. -/
theorem enclosure?_eq_none_of_isBrace {brace : Char} (hbrace : isBrace brace = true)
    (h : scan.ending? brace = none) : scan.enclosure? = none := by
  cases henclosure : scan.enclosure? with
  | none => rfl
  | some enclosure =>
    have hkind : brace = '\x7b' ∨ brace = '\x7d' := by simpa [isBrace] using hbrace
    rcases hkind with rfl | rfl <;> simp [ending?, henclosure] at h

theorem exposes_eq_false {enclosure : Enclosure} (henclosure : scan.enclosure? = some enclosure)
    (h : scan.ending? ';' = none) : enclosure.exposes ';' = false := by
  cases hexposes : enclosure.exposes ';' with
  | false => rfl
  | true => simp [ending?, henclosure, hexposes] at h

end Scan

namespace IsRunText

variable {ending : Ending} {text : List Char}

/-- The scanner is outside of comments behind the text, since a run is not ended in one. -/
theorem enclosure?_ne_none (h : IsRunText ending text) :
    (Scan.start.after text).enclosure? ≠ none := by
  intro hnone
  have hescapes : (Scan.start.after text).escapes = false := by simp [Scan.escapes, hnone]
  have hends := h.ending?_after (Scan.ending?_settled hescapes _)
  simp [Scan.ending?, hnone] at hends

theorem isTokenText (h : IsRunText ending text) : IsTokenText text := by
  have hclosed : ClosesComments text := closesComments_iff.2 h.enclosure?_ne_none
  have hpasses := Scan.passes_iff.1 h.passes
  obtain ⟨c, rest, htext, hfiller, hclosing, hcomment⟩ := h.startsRun [] (by simp)
  rw [List.append_nil] at htext hcomment
  simp only [isFiller, Bool.or_eq_false_iff, beq_eq_false_iff_ne] at hfiller
  refine ⟨h.ne_nil, h.trimmed, ?_, ?_, hclosed, ?_, ?_⟩
  · intro first hfirst
    obtain rfl : c = first := by simpa [htext] using hfirst
    exact ⟨hfiller.1.2, hclosing, hfiller.2⟩
  · rintro ⟨body, hbody⟩
    exact hcomment body hbody.symm
  · rintro before brace rest rfl hbrace
    have hnone := Scan.enclosure?_eq_none_of_isBrace hbrace (hpasses before brace rest rfl)
    refine (inComment_iff hclosed ?_ ?_).2 hnone
    · rintro rfl
      exact absurd hbrace (by decide)
    · rintro rfl
      exact absurd hbrace (by decide)
  · rintro before rest rfl
    cases henclosure : (Scan.start.after before).enclosure? with
    | none => exact .inl ((inComment_iff hclosed (by decide) (by decide)).2 henclosure)
    | some enclosure =>
      exact .inr ⟨enclosure, rfl, Scan.exposes_eq_false henclosure (hpasses before ';' rest rfl)⟩

end IsRunText

namespace IsTokenText

variable {text : List Char}

/-- Nothing in the text ends a run. -/
theorem passes (h : IsTokenText text) : Scan.start.Passes text := by
  refine Scan.passes_iff.2 fun before c rest htext => ?_
  cases henclosure : (Scan.start.after before).enclosure? with
  | none => rw [Scan.ending?, henclosure]
  | some enclosure =>
    have houtside : ¬InComment text before := by
      intro hinside
      rw [htext] at hinside
      simp [hinside.enclosure?_eq_none] at henclosure
    refine Scan.ending?_eq_none henclosure ?_ ?_
    · by_contra hbrace
      exact houtside (h.braces before c rest htext (by simpa using hbrace))
    · rintro rfl
      obtain ⟨found, hfound, hexposes⟩ := (h.semicolons before rest htext).resolve_left houtside
      obtain rfl := Option.some.inj (henclosure.symm.trans hfound)
      exact hexposes

theorem startsRun (h : IsTokenText text) {mark : Char} (hmark : mark ≠ '*') (rest : List Char) :
    StartsRun (text ++ mark :: rest) := by
  have hstart : StartsRun (text ++ []) := by
    obtain ⟨c, others, hcons⟩ := List.exists_cons_of_ne_nil h.ne_nil
    have hhead : c ∈ text.head? := by simp [hcons]
    obtain ⟨hopening, hclosing, hsemicolon⟩ := h.head_ne c hhead
    refine ⟨c, others, by rw [hcons, List.append_nil], ?_, hclosing, fun body hbody => ?_⟩
    · simp [isFiller, h.trimmed.1 c hhead, hopening, hsemicolon]
    · rw [List.append_nil] at hbody
      exact h.not_comment ⟨body, hbody.symm⟩
  exact hstart.of_front h.ne_nil (by simpa using hmark)

theorem run_append_cons (h : IsTokenText text) (ending : Ending)
    (hbrace : isBrace ending.mark = true) (rest : List Char) :
    Scan.run .start (text ++ ending.mark :: rest) = some (text, ending, rest) := by
  refine Scan.run_eq_some_iff.2 ⟨h.passes, ?_, rfl⟩
  obtain ⟨enclosure, henclosure⟩ :=
    Option.ne_none_iff_exists'.1 (closesComments_iff.1 h.closesComments)
  cases ending with
  | opening => simp [Scan.ending?, henclosure, Ending.mark]
  | closing => simp [Scan.ending?, henclosure, Ending.mark]
  | semicolon => exact absurd hbrace (by decide)

theorem tokensOf_opening (h : IsTokenText text) :
    tokensOf (text ++ ['\x7b']) = [.opening (String.ofList text)] := by
  have hrun := h.run_append_cons .opening (by decide) []
  have hlexes := Lexes.opening (h.startsRun (by decide) []) hrun
  rw [h.trimmed.trim_eq] at hlexes
  exact hlexes.tokensOf_eq

theorem tokensOf_closing (h : IsTokenText text) :
    tokensOf (text ++ ['\x7d']) = [.declaration (String.ofList text), .closing] := by
  have hrun := h.run_append_cons .closing (by decide) []
  have hlexes := Lexes.brace (h.startsRun (by decide) []) hrun
  rw [h.trimmed.trim_eq] at hlexes
  refine tokensOf_eq_cons_iff.2 ⟨_, hlexes.dropWhile_eq.symm ▸ hlexes, ?_⟩
  rw [tokensOf_closing_cons, tokensOf_nil]

end IsTokenText

/-- The texts of selectors are the texts of the shape, and so are those of declarations. -/
theorem exists_mem_tokens_iff (text : String) :
    ((∃ css, Token.opening text ∈ tokens css) ↔ IsTokenText text.toList) ∧
      ((∃ css, Token.declaration text ∈ tokens css) ↔ IsTokenText text.toList) := by
  have hshape : ∀ css : String, ∀ token ∈ tokens css,
      token = .opening text ∨ token = .declaration text → IsTokenText text.toList := by
    intro css
    refine forall_mem_tokensOf (P := fun token =>
      token = .opening text ∨ token = .declaration text → IsTokenText text.toList) ?_ css.toList
    rintro input token rest hlexes (rfl | rfl)
    · exact hlexes.isRunText_of_opening.isTokenText
    · obtain ⟨ending, hrun⟩ := hlexes.exists_isRunText_of_declaration
      exact hrun.isTokenText
  refine ⟨⟨fun ⟨css, hmem⟩ => hshape css _ hmem (.inl rfl), fun h => ⟨text ++ "\x7b", ?_⟩⟩,
    ⟨fun ⟨css, hmem⟩ => hshape css _ hmem (.inr rfl), fun h => ⟨text ++ "\x7d", ?_⟩⟩⟩
  · have htokens := h.tokensOf_opening
    rw [String.ofList_toList] at htokens
    rw [tokens_eq_tokensOf, String.toList_append]
    exact htokens ▸ List.mem_cons_self ..
  · have htokens := h.tokensOf_closing
    rw [String.ofList_toList] at htokens
    rw [tokens_eq_tokensOf, String.toList_append]
    exact htokens ▸ List.mem_cons_self ..

/-- The opening of a comment in a string is none, and a comment with braces, a bracket without its
partner and an escaped semicolon leave the selector whole. -/
example : tokens "a[b=\"/*\"]/* \x7b;\x7d */\\;(; \x7b" =
    [.opening "a[b=\"/*\"]/* \x7b;\x7d */\\;(;"] := by
  decide +kernel

end StyleTree
