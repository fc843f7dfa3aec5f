import Mathlib.Tactic.SplitIfs
import StyleTree.Proofs.Comment
import StyleTree.Proofs.Text.Trim
import StyleTree.Token.Lexer

/-!
# The token stream

`Lexes` says once and for all what a token can look like: which text makes it, and what is left
after it. Reading tokens agrees with it in both directions, so the lexer need not be opened again.
-/

namespace StyleTree

/-- The tokens of a text. -/
def tokensOf (text : List Char) : List Token :=
  (Cursor.lex ⟨0, text⟩).lexemes.map Lexeme.token

theorem tokens_eq_tokensOf (css : String) : tokens css = tokensOf css.toList :=
  rfl

/-! ### Runs -/

/-- The character that ends a run. -/
def Ending.mark : Ending → Char
  | .opening => '{'
  | .closing => '}'
  | .semicolon => ';'

namespace Scan

theorem eq_mark_of_ending? {scan : Scan} {c : Char} {ending : Ending}
    (h : scan.ending? c = some ending) : c = ending.mark := by
  cases henclosure : scan.enclosure? with
  | none => simp [ending?, henclosure] at h
  | some enclosure =>
    simp only [ending?, henclosure] at h
    split_ifs at h with hopening hclosing hsemicolon
    · rw [← Option.some.inj h]
      exact hopening
    · rw [← Option.some.inj h]
      exact hclosing
    · rw [← Option.some.inj h]
      exact hsemicolon.1

/-- A run ends at the first character or takes it and goes on with the next. -/
theorem exists_of_run_cons {scan : Scan} {c : Char} {rest taken after : List Char}
    {ending : Ending} (h : run scan (c :: rest) = some (taken, ending, after)) :
    (taken = [] ∧ scan.ending? c = some ending ∧ rest = after) ∨
      ∃ others, taken = c :: others ∧ scan.ending? c = none ∧
        run (scan.next c) rest = some (others, ending, after) := by
  rw [run] at h
  cases hend : scan.ending? c with
  | some found =>
    rw [hend] at h
    obtain ⟨rfl, rfl, rfl⟩ : [] = taken ∧ found = ending ∧ rest = after := by simpa using h
    exact .inl ⟨rfl, rfl, rfl⟩
  | none =>
    rw [hend] at h
    obtain ⟨⟨others, e, a⟩, hrun, heq⟩ := Option.map_eq_some_iff.1 h
    obtain ⟨rfl, rfl, rfl⟩ : c :: others = taken ∧ e = ending ∧ a = after := by simpa using heq
    exact .inr ⟨others, rfl, rfl, hrun⟩

/-- A run is ended by the mark of its ending, which is the only thing that the division loses. -/
theorem eq_append_of_run {scan : Scan} {input taken after : List Char} {ending : Ending}
    (h : run scan input = some (taken, ending, after)) :
    input = taken ++ ending.mark :: after := by
  induction input generalizing scan taken with
  | nil => simp [run] at h
  | cons c rest ih =>
    obtain ⟨rfl, hend, rfl⟩ | ⟨others, rfl, -, hrun⟩ := exists_of_run_cons h
    · rw [List.nil_append, eq_mark_of_ending? hend]
    · rw [ih hrun, List.cons_append]

/-- What ends a run does not depend on the text after it. -/
theorem run_append {scan : Scan} {input taken after : List Char} {ending : Ending}
    (h : run scan input = some (taken, ending, after)) (more : List Char) :
    run scan (input ++ more) = some (taken, ending, after ++ more) := by
  induction input generalizing scan taken with
  | nil => simp [run] at h
  | cons c rest ih =>
    obtain ⟨rfl, hend, rfl⟩ | ⟨others, rfl, hend, hrun⟩ := exists_of_run_cons h
    · rw [List.cons_append, run, hend]
    · rw [List.cons_append, run, hend]
      simp only [ih hrun, Option.map_some]

end Scan

/-! ### What a token can look like -/

/-- A comment has an end. Other tokens have one in any case. -/
def Token.IsFinished : Token → Prop
  | .comment text => ∃ inside, text = String.ofList (['/', '*'] ++ inside ++ ['*', '/'])
  | .opening _ => True
  | .closing => True
  | .declaration _ => True

/-- The texts that start with a run: with no filler, no closing brace and no comment. -/
def StartsRun (text : List Char) : Prop :=
  ∃ c rest, text = c :: rest ∧ isFiller c = false ∧ c ≠ '}' ∧ ∀ body, text ≠ '/' :: '*' :: body

/-- `Lexes text token rest` holds if `text`, which has no filler before its first token, starts
with `token`, and `rest` is left to read after it. -/
inductive Lexes : List Char → Token → List Char → Prop where
  | closing (rest : List Char) : Lexes ('}' :: rest) .closing rest
  | comment {body inside after : List Char} (hclose : Comment.close? body = some (inside, after)) :
    Lexes ('/' :: '*' :: body) (.comment (String.ofList (['/', '*'] ++ inside ++ ['*', '/']))) after
  /-- A comment without a closing takes all that is left. -/
  | unclosed {body : List Char} (hclose : Comment.close? body = none) :
    Lexes ('/' :: '*' :: body) (.comment (String.ofList ('/' :: '*' :: body))) []
  | opening {text run after : List Char} (hstart : StartsRun text)
    (hrun : Scan.run .start text = some (run, .opening, after)) :
    Lexes text (.opening (String.ofList (Text.trim run))) after
  | semicolon {text run after : List Char} (hstart : StartsRun text)
    (hrun : Scan.run .start text = some (run, .semicolon, after)) :
    Lexes text (.declaration (String.ofList (Text.trim run))) after
  /-- A run that a closing brace ends is a declaration too. The brace is left to read. -/
  | brace {text run after : List Char} (hstart : StartsRun text)
    (hrun : Scan.run .start text = some (run, .closing, after)) :
    Lexes text (.declaration (String.ofList (Text.trim run))) ('}' :: after)

/-- A run takes the first character of the text that it starts. -/
theorem StartsRun.run_ne_nil {text run after : List Char} {ending : Ending}
    (hstart : StartsRun text) (hrun : Scan.run .start text = some (run, ending, after)) :
    run ≠ [] := by
  obtain ⟨c, rest, rfl, hfiller, hbrace, -⟩ := hstart
  refine Scan.ne_nil_of_run ?_ hrun
  simp only [isFiller, Bool.or_eq_false_iff, beq_eq_false_iff_ne] at hfiller
  simp [Scan.ending?, Scan.start, Scan.enclosure?, hfiller, hbrace]

theorem StartsRun.isBlank_head {text run after : List Char} {ending : Ending}
    (hstart : StartsRun text) (hrun : Scan.run .start text = some (run, ending, after)) :
    ∀ c ∈ run.head?, Text.isBlank c = false := by
  obtain ⟨d, run, rfl⟩ := List.exists_cons_of_ne_nil (hstart.run_ne_nil hrun)
  obtain ⟨c, rest, rfl, hfiller, -⟩ := hstart
  have hsplit := Scan.eq_append_of_run hrun
  obtain ⟨rfl, -⟩ : c = d ∧ rest = run ++ ending.mark :: after := by simpa using hsplit
  simp only [isFiller, Bool.or_eq_false_iff] at hfiller
  simpa using hfiller.1.1

theorem StartsRun.append {text run after : List Char} {ending : Ending}
    (hstart : StartsRun text) (hrun : Scan.run .start text = some (run, ending, after))
    (more : List Char) : StartsRun (text ++ more) := by
  have hne := hstart.run_ne_nil hrun
  have hsplit := Scan.eq_append_of_run hrun
  obtain ⟨c, rest, rfl, hfiller, hbrace, hcomment⟩ := hstart
  refine ⟨c, rest ++ more, rfl, hfiller, hbrace, fun body hbody => ?_⟩
  -- The run and its mark are two characters, so both delimiters would lie in `text`.
  cases rest with
  | nil =>
    have hlength := congrArg List.length hsplit
    have hpos := List.length_pos_iff.2 hne
    simp only [List.length_cons, List.length_nil, List.length_append] at hlength
    omega
  | cons d rest =>
    obtain ⟨rfl, rfl, -⟩ : c = '/' ∧ d = '*' ∧ rest ++ more = body := by simpa using hbody
    exact hcomment rest rfl

namespace Lexes

variable {text rest : List Char} {token : Token}

theorem exists_eq_cons (h : Lexes text token rest) :
    ∃ c tail, text = c :: tail ∧ isFiller c = false := by
  have hstart : ∀ {text : List Char}, StartsRun text →
      ∃ c tail, text = c :: tail ∧ isFiller c = false := by
    rintro text ⟨c, tail, htext, hfiller, -⟩
    exact ⟨c, tail, htext, hfiller⟩
  cases h with
  | closing => exact ⟨'}', _, rfl, by decide⟩
  | comment => exact ⟨'/', _, rfl, by decide⟩
  | unclosed => exact ⟨'/', _, rfl, by decide⟩
  | opening h => exact hstart h
  | semicolon h => exact hstart h
  | brace h => exact hstart h

theorem dropWhile_eq (h : Lexes text token rest) : text.dropWhile isFiller = text := by
  obtain ⟨c, tail, rfl, hfiller⟩ := h.exists_eq_cons
  rw [List.dropWhile_cons_of_neg (by simp [hfiller])]

theorem ne_nil (h : Lexes text token rest) : text ≠ [] := by
  obtain ⟨c, tail, rfl, -⟩ := h.exists_eq_cons
  exact List.cons_ne_nil c tail

/-- A comment with text left after it has an end. -/
theorem isFinished (h : Lexes text token rest)
    (hcut : ∀ inside, token = .comment inside → rest ≠ []) : token.IsFinished := by
  cases h with
  | comment => exact ⟨_, rfl⟩
  | unclosed => exact absurd rfl (hcut _ rfl)
  | closing => trivial
  | opening => trivial
  | semicolon => trivial
  | brace => trivial

/-- More text after a token changes only what is left, unless the token is a comment without an
end. -/
theorem append (h : Lexes text token rest) (hfinished : token.IsFinished) (more : List Char) :
    Lexes (text ++ more) token (rest ++ more) := by
  cases h with
  | closing => exact .closing _
  | comment hclose => exact .comment (Comment.close?_append hclose more)
  | unclosed hclose =>
    obtain ⟨inside, hinside⟩ := hfinished
    rw [String.ofList_inj] at hinside
    obtain rfl : _ = inside ++ ['*', '/'] := by simpa using hinside
    exact absurd hclose (Comment.close?_ne_none inside [])
  | opening hstart hrun => exact .opening (hstart.append hrun more) (Scan.run_append hrun more)
  | semicolon hstart hrun => exact .semicolon (hstart.append hrun more) (Scan.run_append hrun more)
  | brace hstart hrun => exact .brace (hstart.append hrun more) (Scan.run_append hrun more)

end Lexes

/-! ### Reading tokens -/

/-- What a step can give that finds `text` after a gap which ends at `start`. -/
inductive Finds (start : Nat) (noticed : List Event) : List Char → Advance → Prop where
  | closing (after : List Char) :
    Finds start noticed ('}' :: after) ⟨noticed, some .closing, ⟨start + 1, after⟩⟩
  | comment {body inside after : List Char} (hclose : Comment.close? body = some (inside, after)) :
    Finds start noticed ('/' :: '*' :: body)
      ⟨noticed, some (.comment (String.ofList (['/', '*'] ++ inside ++ ['*', '/']))),
        ⟨start + Text.byteLength inside + 4, after⟩⟩
  | unclosed {body : List Char} (hclose : Comment.close? body = none) :
    Finds start noticed ('/' :: '*' :: body)
      ⟨noticed ++ [.unclosedComment start], some (.comment (String.ofList ('/' :: '*' :: body))),
        ⟨start + Text.byteLength body + 2, []⟩⟩
  | opening {text run after : List Char} (hstart : StartsRun text)
    (hrun : Scan.run .start text = some (run, .opening, after)) :
    Finds start noticed text
      ⟨noticed, some (.opening (String.ofList (Text.trim run))),
        ⟨start + Text.byteLength run + 1, after⟩⟩
  | semicolon {text run after : List Char} (hstart : StartsRun text)
    (hrun : Scan.run .start text = some (run, .semicolon, after)) :
    Finds start noticed text
      ⟨noticed, some (.declaration (String.ofList (Text.trim run))),
        ⟨start + Text.byteLength run + 1, after⟩⟩
  | brace {text run after : List Char} (hstart : StartsRun text)
    (hrun : Scan.run .start text = some (run, .closing, after)) :
    Finds start noticed text
      ⟨noticed, some (.declaration (String.ofList (Text.trim run))),
        ⟨start + Text.byteLength run, '}' :: after⟩⟩
  | unfinished {text : List Char} (hstart : StartsRun text) (hrun : Scan.run .start text = none) :
    Finds start noticed text
      ⟨noticed ++ [.unfinishedText start (String.ofList (Text.trim text))], none,
        ⟨start + Text.byteLength text, []⟩⟩
  | nothing : Finds start noticed [] ⟨noticed, none, ⟨start, []⟩⟩

namespace Cursor

/-- The gap that a step passes over before anything else. -/
def gap (cursor : Cursor) : List Char :=
  cursor.rest.takeWhile isFiller

theorem gap_append (cursor : Cursor) : cursor.gap ++ cursor.rest.dropWhile isFiller = cursor.rest :=
  List.takeWhile_append_dropWhile

/-- Behind the filler, a text that starts with a run is read as one. -/
theorem next_of_startsRun {cursor : Cursor}
    (h : StartsRun (cursor.rest.dropWhile isFiller)) :
    cursor.next =
      nextRun (cursor.offset + Text.byteLength (cursor.rest.takeWhile isFiller))
        (cursor.rest.dropWhile isFiller)
        (strayMarks cursor.offset (cursor.rest.takeWhile isFiller)) := by
  obtain ⟨c, rest, htext, -, hbrace, hcomment⟩ := h
  rw [next]
  split
  · rename_i hnil
    simp [hnil] at htext
  · rename_i after hclosing
    rw [hclosing] at htext
    exact absurd (List.cons.inj htext).1.symm hbrace
  · rename_i body hopen
    exact absurd hopen (hcomment body)
  · rfl

/-- A step finds one of the things that there can be after the gap. -/
theorem finds_next (cursor : Cursor) :
    Finds (cursor.offset + Text.byteLength cursor.gap) (strayMarks cursor.offset cursor.gap)
      (cursor.rest.dropWhile isFiller) cursor.next := by
  by_cases hrun : StartsRun (cursor.rest.dropWhile isFiller)
  · rw [next_of_startsRun hrun, nextRun, gap]
    split
    · exact .unfinished hrun ‹_›
    · exact .opening hrun ‹_›
    · exact .semicolon hrun ‹_›
    · exact .brace hrun ‹_›
  · rw [next, gap]
    split
    · rename_i heq
      rw [heq]
      exact .nothing
    · rename_i after heq
      rw [heq]
      exact .closing after
    · rename_i body heq
      rw [heq, nextComment]
      split
      · exact .comment ‹_›
      · exact .unclosed ‹_›
    · rename_i hnil hclosing hcomment
      -- What is neither empty nor one of the tokens with a fixed start would start a run.
      cases htext : cursor.rest.dropWhile isFiller with
      | nil => exact absurd htext hnil
      | cons c rest =>
        have hfiller : isFiller c = false := by
          simpa [htext] using List.head?_dropWhile_not isFiller cursor.rest
        refine absurd ⟨c, rest, htext, hfiller, ?_, hcomment⟩ hrun
        rintro rfl
        exact hclosing rest htext

theorem lexes_of_next {cursor : Cursor} {token : Token} (h : cursor.next.token? = some token) :
    Lexes (cursor.rest.dropWhile isFiller) token cursor.next.cursor.rest := by
  have hfinds := cursor.finds_next
  generalize cursor.next = found at h hfinds ⊢
  generalize cursor.rest.dropWhile isFiller = text at hfinds ⊢
  cases hfinds with
  | closing after => exact Option.some.inj h ▸ .closing after
  | comment hclose => exact Option.some.inj h ▸ .comment hclose
  | unclosed hclose => exact Option.some.inj h ▸ .unclosed hclose
  | opening hstart hrun => exact Option.some.inj h ▸ .opening hstart hrun
  | semicolon hstart hrun => exact Option.some.inj h ▸ .semicolon hstart hrun
  | brace hstart hrun => exact Option.some.inj h ▸ .brace hstart hrun
  | unfinished => cases h
  | nothing => cases h

/-- A token in the sense of `Lexes` is read, and nothing after it. -/
theorem next_of_lexes {cursor : Cursor} {token : Token} {rest : List Char}
    (h : Lexes (cursor.rest.dropWhile isFiller) token rest) :
    cursor.next.token? = some token ∧ cursor.next.cursor.rest = rest := by
  generalize htext : cursor.rest.dropWhile isFiller = text at h
  cases h with
  | closing => simp [next, htext]
  | comment hclose => simp [next, htext, nextComment, hclose]
  | unclosed hclose => simp [next, htext, nextComment, hclose]
  | opening hstart hrun =>
    subst htext
    simp [next_of_startsRun hstart, nextRun, hrun]
  | semicolon hstart hrun =>
    subst htext
    simp [next_of_startsRun hstart, nextRun, hrun]
  | brace hstart hrun =>
    subst htext
    simp [next_of_startsRun hstart, nextRun, hrun]

theorem lexemes_lex_of_none {cursor : Cursor} (h : cursor.next.token? = none) :
    cursor.lex.lexemes = [] := by
  rw [lex]
  split
  · rfl
  · rename_i token htoken
    simp [h] at htoken

theorem lexemes_lex_of_some {cursor : Cursor} {token : Token}
    (h : cursor.next.token? = some token) :
    cursor.lex.lexemes =
      ⟨token, cursor.next.cursor.offset, cursor.next.events⟩ :: cursor.next.cursor.lex.lexemes := by
  rw [lex]
  split
  · rename_i hnone
    simp [h] at hnone
  · rename_i found htoken
    obtain rfl : token = found := Option.some.inj (h.symm.trans htoken)
    rfl

theorem next_congr {cursor other : Cursor} (h : cursor.rest = other.rest) {token : Token}
    (hnext : cursor.next.token? = some token) :
    other.next.token? = some token ∧ other.next.cursor.rest = cursor.next.cursor.rest :=
  next_of_lexes (h ▸ lexes_of_next hnext)

/-- The tokens after a place are those of the text there, whatever its offset is. -/
theorem map_token_lex (cursor : Cursor) :
    cursor.lex.lexemes.map Lexeme.token = tokensOf cursor.rest := by
  -- The other place is general, so that the induction can follow both from token to token.
  suffices hsame : ∀ other : Cursor, cursor.rest = other.rest →
      cursor.lex.lexemes.map Lexeme.token = other.lex.lexemes.map Lexeme.token from
    hsame ⟨0, cursor.rest⟩ rfl
  induction cursor using lex.induct with
  | case1 cursor hnone =>
    intro other h
    cases hother : other.next.token? with
    | none => rw [lexemes_lex_of_none hnone, lexemes_lex_of_none hother]
    | some token =>
      have hsome := (next_congr h.symm hother).1
      simp [hnone] at hsome
  | case2 cursor token hnext ih =>
    intro other h
    obtain ⟨hother, hrest⟩ := next_congr h hnext
    rw [lexemes_lex_of_some hnext, lexemes_lex_of_some hother, List.map_cons, List.map_cons,
      ih _ hrest.symm]

end Cursor

/-! ### Tokens of texts -/

/-- A text has `token` as its first one exactly if that is what it lexes to. -/
theorem tokensOf_eq_cons_iff {text : List Char} {token : Token} {others : List Token} :
    tokensOf text = token :: others ↔
      ∃ rest, Lexes (text.dropWhile isFiller) token rest ∧ tokensOf rest = others := by
  constructor
  · intro h
    cases hnext : (Cursor.next ⟨0, text⟩).token? with
    | none => simp [tokensOf, Cursor.lexemes_lex_of_none hnext] at h
    | some found =>
      rw [tokensOf, Cursor.lexemes_lex_of_some hnext, List.map_cons, Cursor.map_token_lex] at h
      obtain ⟨rfl, rfl⟩ := List.cons.inj h
      exact ⟨_, Cursor.lexes_of_next hnext, rfl⟩
  · rintro ⟨rest, hlexes, rfl⟩
    obtain ⟨hnext, hrest⟩ := Cursor.next_of_lexes (show Lexes
      ((⟨0, text⟩ : Cursor).rest.dropWhile isFiller) token rest from hlexes)
    rw [tokensOf, Cursor.lexemes_lex_of_some hnext, List.map_cons, Cursor.map_token_lex, hrest]

/-- A text that starts a run without an end has no token. -/
theorem tokensOf_eq_nil {text : List Char} (hstart : StartsRun text)
    (hrun : Scan.run .start text = none) : tokensOf text = [] := by
  cases htokens : tokensOf text with
  | nil => rfl
  | cons token others =>
    obtain ⟨rest, hlexes, -⟩ := tokensOf_eq_cons_iff.1 htokens
    obtain ⟨c, tail, rfl, hfiller, hclosing, hcomment⟩ := hstart
    rw [List.dropWhile_cons_of_neg (by simp [hfiller])] at hlexes
    cases hlexes with
    | closing => exact absurd rfl hclosing
    | comment => exact absurd rfl (hcomment _)
    | unclosed => exact absurd rfl (hcomment _)
    | opening _ hsome => simp [hrun] at hsome
    | semicolon _ hsome => simp [hrun] at hsome
    | brace _ hsome => simp [hrun] at hsome

/-- What holds of every token that a text can start with holds of all tokens. -/
theorem forall_mem_tokensOf {P : Token → Prop}
    (h : ∀ text token rest, Lexes text token rest → P token) (text : List Char) :
    ∀ token ∈ tokensOf text, P token := by
  generalize hfound : tokensOf text = found
  induction found generalizing text with
  | nil => exact fun token hmem => absurd hmem List.not_mem_nil
  | cons first others ih =>
    obtain ⟨rest, hlexes, hrest⟩ := tokensOf_eq_cons_iff.1 hfound
    intro token hmem
    rcases List.mem_cons.1 hmem with rfl | hothers
    · exact h _ _ _ hlexes
    · exact ih rest hrest token hothers

/-- Filler at the start of a text does not count. -/
theorem tokensOf_congr {text other : List Char}
    (h : text.dropWhile isFiller = other.dropWhile isFiller) : tokensOf text = tokensOf other := by
  cases htext : tokensOf text with
  | cons token others =>
    obtain ⟨rest, hlexes, hrest⟩ := tokensOf_eq_cons_iff.1 htext
    exact (tokensOf_eq_cons_iff.2 ⟨rest, h ▸ hlexes, hrest⟩).symm
  | nil =>
    cases hother : tokensOf other with
    | nil => rfl
    | cons token others =>
      obtain ⟨rest, hlexes, hrest⟩ := tokensOf_eq_cons_iff.1 hother
      rw [tokensOf_eq_cons_iff.2 ⟨rest, h ▸ hlexes, hrest⟩] at htext
      exact absurd htext (List.cons_ne_nil token others)

theorem tokensOf_filler_append {filler : List Char} (h : ∀ c ∈ filler, isFiller c = true)
    (text : List Char) : tokensOf (filler ++ text) = tokensOf text :=
  tokensOf_congr (List.dropWhile_append_of_pos h)

theorem tokensOf_filler_cons {c : Char} (h : isFiller c = true) (text : List Char) :
    tokensOf (c :: text) = tokensOf text :=
  tokensOf_congr (List.dropWhile_cons_of_pos h)

theorem tokensOf_closing_cons (rest : List Char) :
    tokensOf ('}' :: rest) = .closing :: tokensOf rest :=
  tokensOf_eq_cons_iff.2 ⟨rest, (Lexes.closing rest).dropWhile_eq ▸ .closing rest, rfl⟩

/-- A complete first token of a text is that of a longer text too, and what is left of the text
is read together with what was added. -/
theorem tokensOf_append {text rest : List Char} {token : Token}
    (h : Lexes (text.dropWhile isFiller) token rest)
    (hcut : ∀ inside, token = .comment inside → rest ≠ []) (more : List Char) :
    tokensOf (text ++ more) = token :: tokensOf (rest ++ more) := by
  refine tokensOf_eq_cons_iff.2 ⟨rest ++ more, ?_, rfl⟩
  have hdrop : (text ++ more).dropWhile isFiller = text.dropWhile isFiller ++ more := by
    rw [List.dropWhile_append, if_neg (by simpa using h.ne_nil)]
  rw [hdrop]
  exact h.append (h.isFinished hcut) more

theorem tokensOf_nil : tokensOf [] = [] := by
  decide +kernel

/-- The first tokens of a text are those of a longer text too. The last of them may not be a
comment, which could have been cut off. -/
theorem prefix_tokensOf_append {taken : List Token} {text : List Char}
    (h : taken <+: tokensOf text) (hlast : ∀ inside, taken.getLast? ≠ some (.comment inside))
    (more : List Char) : taken <+: tokensOf (text ++ more) := by
  induction taken generalizing text with
  | nil => exact List.nil_prefix
  | cons token rest ih =>
    obtain ⟨others, hothers⟩ := h
    obtain ⟨left, hlexes, hleft⟩ := tokensOf_eq_cons_iff.1 hothers.symm
    have hcut : ∀ inside, token = .comment inside → left ≠ [] := by
      rintro inside rfl rfl
      rw [tokensOf_nil] at hleft
      obtain ⟨rfl, -⟩ := List.append_eq_nil_iff.1 hleft.symm
      exact hlast inside rfl
    rw [tokensOf_append hlexes hcut more, List.prefix_cons_inj]
    refine ih ⟨others, hleft.symm⟩ ?_
    intro inside hinside
    refine hlast inside ?_
    rw [List.getLast?_cons, hinside]
    rfl

end StyleTree
