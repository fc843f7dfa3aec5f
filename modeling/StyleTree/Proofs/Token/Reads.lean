import Mathlib.Data.List.TakeWhile
import StyleTree.Proofs.Token.Walk

/-!
# Readings of a text

A text is read as its tokens, with a remainder behind them that no token takes. There is one reading
of a text, so that whatever can be read off it in this way is what the lexer finds.
-/

namespace StyleTree

/-- `Reads text tokens remainder` holds if `tokens` can be taken off the text, with filler before
each of them, and then, behind more filler, `remainder` is a run that nothing ends. -/
inductive Reads : List Char → List Token → List Char → Prop where
  | done {text : List Char} (h : IsUnfinished (text.dropWhile isFiller)) :
    Reads text [] (text.dropWhile isFiller)
  | token {text rest remainder : List Char} {token : Token} {others : List Token}
    (hlexes : Lexes (text.dropWhile isFiller) token rest) (hrest : Reads rest others remainder) :
    Reads text (token :: others) remainder

/-- What is left of a text behind its last token and the filler after that. -/
def unfinished (text : List Char) : List Char :=
  ((⟨0, text⟩ : Cursor).skip (tokensOf text).length).rest.dropWhile isFiller

/-- Reading token by token comes to the remainder. -/
theorem Cursor.reads_lex (cursor : Cursor) :
    Reads cursor.rest (cursor.lex.lexemes.map Lexeme.token)
      ((cursor.skip cursor.lex.lexemes.length).rest.dropWhile isFiller) := by
  induction cursor using lex.induct with
  | case1 cursor hnone =>
    rw [lexemes_lex_of_none hnone]
    exact .done (cursor.finds_next.of_none hnone).1
  | case2 cursor token hsome ih =>
    rw [lexemes_lex_of_some hsome, List.map_cons, List.length_cons, skip]
    exact .token (lexes_of_next hsome) ih

theorem reads_tokensOf (text : List Char) : Reads text (tokensOf text) (unfinished text) := by
  have hreads := Cursor.reads_lex ⟨0, text⟩
  rwa [← List.length_map Lexeme.token] at hreads

theorem Lexes.eq {text rest left : List Char} {token other : Token} (h : Lexes text token rest)
    (hother : Lexes text other left) : token = other ∧ rest = left := by
  -- Both are what one step of reading finds.
  have hstep : ∀ {token rest}, Lexes text token rest →
      (Cursor.next ⟨0, text⟩).token? = some token ∧ (Cursor.next ⟨0, text⟩).cursor.rest = rest := by
    intro token rest hlexes
    apply Cursor.next_of_lexes
    show Lexes (text.dropWhile isFiller) token rest
    rwa [hlexes.dropWhile_eq]
  obtain ⟨htoken, hrest⟩ := hstep h
  obtain ⟨hfound, hleft⟩ := hstep hother
  exact ⟨Option.some.inj (htoken.symm.trans hfound), hrest.symm.trans hleft⟩

/-- No token can be taken off a run that nothing ends. -/
theorem IsUnfinished.not_lexes {text rest : List Char} {token : Token} (h : IsUnfinished text) :
    ¬Lexes text token rest := by
  intro hlexes
  obtain rfl | ⟨⟨c, tail, htext, hfiller, hbrace, hcomment⟩, hnone⟩ := h
  · exact hlexes.ne_nil rfl
  · cases hlexes with
    | closing => exact hbrace (List.cons.inj htext).1.symm
    | comment => exact hcomment _ rfl
    | unclosed => exact hcomment _ rfl
    | opening _ hrun => simp [hrun] at hnone
    | semicolon _ hrun => simp [hrun] at hnone
    | brace _ hrun => simp [hrun] at hnone

namespace Reads

variable {text remainder : List Char} {found : List Token}

/-- A text is read in one way only. -/
theorem eq (h : Reads text found remainder) :
    tokensOf text = found ∧ unfinished text = remainder := by
  suffices hunique : ∀ {others : List Token} {left : List Char}, Reads text others left →
      others = found ∧ left = remainder from hunique (reads_tokensOf text)
  induction h with
  | done hend =>
    intro others left hother
    cases hother with
    | done => exact ⟨rfl, rfl⟩
    | token hlexes => exact absurd hlexes hend.not_lexes
  | token hlexes _ ih =>
    intro others left hother
    cases hother with
    | done hend => exact absurd hlexes hend.not_lexes
    | token hfirst hmore =>
      obtain ⟨rfl, rfl⟩ := hfirst.eq hlexes
      obtain ⟨rfl, rfl⟩ := ih hmore
      exact ⟨rfl, rfl⟩

/-- Filler at the start of a text does not count. -/
theorem congr (h : Reads text found remainder) {other : List Char}
    (hsame : other.dropWhile isFiller = text.dropWhile isFiller) :
    Reads other found remainder := by
  cases h with
  | done hend =>
    rw [← hsame] at hend ⊢
    exact .done hend
  | token hlexes hrest =>
    rw [← hsame] at hlexes
    exact .token hlexes hrest

/-- A text without a remainder and a text after it are each read as they are read alone. -/
theorem append (h : Reads text found []) (hfinished : ∀ token ∈ found, token.IsFinished)
    {more : List Char} {others : List Token} (hmore : Reads more others remainder) :
    Reads (text ++ more) (found ++ others) remainder := by
  generalize hnil : ([] : List Char) = left at h
  induction h with
  | @done text hend =>
    apply hmore.congr
    exact List.dropWhile_append_of_pos (List.dropWhile_eq_nil_iff.1 hnil.symm)
  | @token text rest left token found hlexes _ ih =>
    obtain ⟨hfirst, hrest⟩ := List.forall_mem_cons.1 hfinished
    have hdrop : (text ++ more).dropWhile isFiller = text.dropWhile isFiller ++ more := by
      rw [List.dropWhile_append, if_neg (by simpa using hlexes.ne_nil)]
    refine .token ?_ (ih hrest hnil)
    rw [hdrop]
    exact hlexes.append hfirst more

end Reads

end StyleTree
