import StyleTree.Proofs.Text.Trim
import StyleTree.Proofs.Token.Stream

/-!
# Walking through a style sheet

Each step passes over a gap of blanks and stray marks and takes one token; the last one passes over
a gap and a run without an end. Nothing is passed over in silence.
-/

namespace StyleTree

/-- The place after `n` more steps. A step without a token leads to the end of the text. -/
def Cursor.skip (cursor : Cursor) : Nat → Cursor
  | 0 => cursor
  | n + 1 => cursor.next.cursor.skip n

/-- The place stands between two characters of a style sheet, or at one of its ends. -/
def Cursor.LiesIn (cursor : Cursor) (css : String) : Prop :=
  ∃ before, css.toList = before ++ cursor.rest ∧ cursor.offset = Text.byteLength before

/-- `lexeme`, in front of `rest`, is the text that a token takes. Blanks may stand between the text
of a selector or declaration and the mark that ends it. A closing brace that ends a declaration is
left for the token that it makes itself. -/
def Token.IsLexeme (lexeme rest : List Char) : Token → Prop
  | .comment text => lexeme = text.toList
  | .closing => lexeme = ['}']
  | .opening selector => ∃ blanks, (∀ c ∈ blanks, Text.isBlank c = true) ∧
      lexeme = selector.toList ++ blanks ++ ['{']
  | .declaration text => ∃ blanks, (∀ c ∈ blanks, Text.isBlank c = true) ∧
      (lexeme = text.toList ++ blanks ++ [';'] ∨
        lexeme = text.toList ++ blanks ∧ ∃ after, rest = '}' :: after)

/-- A run that nothing ends. There may be nothing in it. -/
def IsUnfinished (run : List Char) : Prop :=
  run = [] ∨ StartsRun run ∧ Scan.run .start run = none

/-- All that is reported while a style sheet is read to its end, in order. -/
def Lexing.log (lexing : Lexing) : List Event :=
  lexing.lexemes.flatMap Lexeme.events ++ lexing.trailing

/-- The place that a report of the lexer is about. -/
def Event.offset? : Event → Option Nat
  | .strayMark _ offset => some offset
  | .unclosedComment offset => some offset
  | .unfinishedText offset _ => some offset
  | .unmatchedBrace _ => none
  | .tooDeep .. => none
  | .noSelector _ => none
  | .renamed .. => none
  | .finished .. => none

theorem Text.byteLength_pos {text : List Char} (h : text ≠ []) : 0 < byteLength text := by
  obtain ⟨c, rest, rfl⟩ := List.exists_cons_of_ne_nil h
  rw [byteLength_cons]
  have := c.utf8Size_pos
  omega

/-! ### Stray marks -/

theorem strayMarks_append (offset : Nat) (text more : List Char) :
    strayMarks offset (text ++ more) =
      strayMarks offset text ++ strayMarks (offset + Text.byteLength text) more := by
  induction text generalizing offset with
  | nil => rfl
  | cons c rest ih =>
    rw [List.cons_append, strayMarks, strayMarks, ih, Text.byteLength_cons, Nat.add_assoc]
    split <;> rfl

/-- The reports on a filler are about places in it. -/
theorem offset_of_mem_strayMarks {offset : Nat} {text : List Char} {event : Event}
    (h : event ∈ strayMarks offset text) :
    ∃ place, event.offset? = some place ∧ offset ≤ place ∧
      place < offset + Text.byteLength text := by
  induction text generalizing offset with
  | nil => simp [strayMarks] at h
  | cons c rest ih =>
    have hpos := c.utf8Size_pos
    have hrest : event ∈ strayMarks (offset + c.utf8Size) rest →
        ∃ place, event.offset? = some place ∧ offset ≤ place ∧
          place < offset + Text.byteLength (c :: rest) := by
      intro hmem
      obtain ⟨place, hplace, hle, hlt⟩ := ih hmem
      rw [Text.byteLength_cons]
      exact ⟨place, hplace, by omega, by omega⟩
    rw [strayMarks] at h
    split at h
    · exact hrest h
    · rcases List.mem_cons.1 h with rfl | hmem
      · refine ⟨offset, rfl, Nat.le_refl _, ?_⟩
        rw [Text.byteLength_cons]
        omega
      · exact hrest hmem

/-- A mark of a filler is reported once. -/
theorem count_strayMarks {mark : Char} (hmark : Text.isBlank mark = false) (offset : Nat)
    (before after : List Char) :
    (strayMarks offset (before ++ mark :: after)).count
      (.strayMark mark (offset + Text.byteLength before)) = 1 := by
  have hpos := mark.utf8Size_pos
  -- Neither the marks before nor those after are at the same place.
  have hbefore : (strayMarks offset before).count
      (.strayMark mark (offset + Text.byteLength before)) = 0 := by
    rw [List.count_eq_zero]
    intro hmem
    obtain ⟨place, hplace, -, hlt⟩ := offset_of_mem_strayMarks hmem
    rw [← Option.some.inj hplace] at hlt
    omega
  have hafter : (strayMarks (offset + Text.byteLength before + mark.utf8Size) after).count
      (.strayMark mark (offset + Text.byteLength before)) = 0 := by
    rw [List.count_eq_zero]
    intro hmem
    obtain ⟨place, hplace, hle, -⟩ := offset_of_mem_strayMarks hmem
    rw [← Option.some.inj hplace] at hle
    omega
  rw [strayMarks_append, strayMarks, hmark, List.count_append, hbefore]
  simp only [Bool.false_eq_true, if_false]
  rw [List.count_cons_self, hafter]

/-! ### One step -/

theorem Lexes.exists_lexeme {text rest : List Char} {token : Token} (h : Lexes text token rest) :
    ∃ lexeme, text = lexeme ++ rest ∧ token.IsLexeme lexeme rest := by
  cases h with
  | closing rest => exact ⟨['}'], rfl, rfl⟩
  | comment hclose =>
    refine ⟨_, ?_, String.toList_ofList.symm⟩
    simp [Comment.eq_append_of_close? hclose]
  | unclosed hclose => exact ⟨_, by simp, String.toList_ofList.symm⟩
  | @opening text run rest hstart hrun =>
    obtain ⟨blanks, hblanks, hsplit⟩ := Text.exists_trim_append (hstart.isBlank_head hrun)
    refine ⟨run ++ ['{'], ?_, blanks, hblanks, ?_⟩
    · rw [List.append_assoc]
      exact Scan.eq_append_of_run hrun
    · rw [String.toList_ofList, ← hsplit]
  | @semicolon text run rest hstart hrun =>
    obtain ⟨blanks, hblanks, hsplit⟩ := Text.exists_trim_append (hstart.isBlank_head hrun)
    refine ⟨run ++ [';'], ?_, blanks, hblanks, .inl ?_⟩
    · rw [List.append_assoc]
      exact Scan.eq_append_of_run hrun
    · rw [String.toList_ofList, ← hsplit]
  | @brace text run after hstart hrun =>
    obtain ⟨blanks, hblanks, hsplit⟩ := Text.exists_trim_append (hstart.isBlank_head hrun)
    refine ⟨run, Scan.eq_append_of_run hrun, blanks, hblanks, .inr ⟨?_, after, rfl⟩⟩
    rw [String.toList_ofList, ← hsplit]

namespace Finds

variable {start : Nat} {noticed : List Event} {text : List Char} {found : Advance}

/-- The place moves by as many bytes as are no longer left. -/
theorem offset_add (h : Finds start noticed text found) :
    found.cursor.offset + Text.byteLength found.cursor.rest = start + Text.byteLength text := by
  -- All marks are single bytes.
  have hone : ('/' : Char).utf8Size = 1 ∧ ('*' : Char).utf8Size = 1 ∧ ('{' : Char).utf8Size = 1 ∧
      ('}' : Char).utf8Size = 1 ∧ (';' : Char).utf8Size = 1 := by decide
  obtain ⟨hslash, hstar, hopening, hclosing, hsemicolon⟩ := hone
  cases h with
  | closing after =>
    rw [Text.byteLength_cons, hclosing, Nat.add_assoc]
  | comment hclose =>
    simp only [Comment.eq_append_of_close? hclose, Text.byteLength_cons, Text.byteLength_append]
    omega
  | unclosed hclose =>
    simp only [Text.byteLength_cons, Text.byteLength_nil]
    omega
  | opening hstart hrun =>
    simp only [Scan.eq_append_of_run hrun, Ending.mark, Text.byteLength_cons,
      Text.byteLength_append]
    omega
  | semicolon hstart hrun =>
    simp only [Scan.eq_append_of_run hrun, Ending.mark, Text.byteLength_cons,
      Text.byteLength_append]
    omega
  | brace hstart hrun =>
    simp only [Scan.eq_append_of_run hrun, Ending.mark, Text.byteLength_cons,
      Text.byteLength_append]
    omega
  | unfinished hstart hrun => rfl
  | nothing => rfl

/-- What is left is the end of what there was. -/
theorem exists_taken (h : Finds start noticed text found) :
    ∃ taken, text = taken ++ found.cursor.rest := by
  cases h with
  | closing after => exact ⟨['}'], rfl⟩
  | @comment body inside after hclose =>
    exact ⟨['/', '*'] ++ inside ++ ['*', '/'], by simp [Comment.eq_append_of_close? hclose]⟩
  | @unclosed body hclose => exact ⟨'/' :: '*' :: body, (List.append_nil _).symm⟩
  | @opening text run after hstart hrun =>
    exact ⟨run ++ ['{'], by simp [Scan.eq_append_of_run hrun, Ending.mark]⟩
  | @semicolon text run after hstart hrun =>
    exact ⟨run ++ [';'], by simp [Scan.eq_append_of_run hrun, Ending.mark]⟩
  | @brace text run after hstart hrun => exact ⟨run, Scan.eq_append_of_run hrun⟩
  | unfinished hstart hrun => exact ⟨text, (List.append_nil _).symm⟩
  | nothing => exact ⟨[], rfl⟩

/-- Beyond what was noticed before, a step reports what it finds at its start. -/
theorem exists_events (h : Finds start noticed text found) :
    ∃ others, found.events = noticed ++ others ∧
      ∀ event ∈ others, event.offset? = some start ∧ start < found.cursor.offset ∧
        ∀ mark offset, event ≠ .strayMark mark offset := by
  cases h with
  | closing after => exact ⟨[], (List.append_nil _).symm, by simp⟩
  | comment hclose => exact ⟨[], (List.append_nil _).symm, by simp⟩
  | opening hstart hrun => exact ⟨[], (List.append_nil _).symm, by simp⟩
  | semicolon hstart hrun => exact ⟨[], (List.append_nil _).symm, by simp⟩
  | brace hstart hrun => exact ⟨[], (List.append_nil _).symm, by simp⟩
  | nothing => exact ⟨[], (List.append_nil _).symm, by simp⟩
  | unclosed hclose =>
    refine ⟨_, rfl, List.forall_mem_singleton.2 ⟨rfl, ?_, by simp⟩⟩
    simp only
    omega
  | unfinished hstart hrun =>
    refine ⟨_, rfl, List.forall_mem_singleton.2 ⟨rfl, ?_, by simp⟩⟩
    obtain ⟨c, rest, htext, -⟩ := hstart
    have hpos := Text.byteLength_pos (htext ▸ List.cons_ne_nil c rest)
    simp only
    omega

/-- Where there is no token, there is nothing but a run without an end. -/
theorem of_none (h : Finds start noticed text found) (hnone : found.token? = none) :
    IsUnfinished text ∧ found.cursor = ⟨start + Text.byteLength text, []⟩ ∧
      (text ≠ [] →
        found.events = noticed ++ [.unfinishedText start (String.ofList (Text.trim text))]) := by
  cases h with
  | unfinished hstart hrun => exact ⟨.inr ⟨hstart, hrun⟩, rfl, fun _ => rfl⟩
  | nothing => exact ⟨.inl rfl, rfl, fun hne => absurd rfl hne⟩
  | closing => cases hnone
  | comment => cases hnone
  | unclosed => cases hnone
  | opening => cases hnone
  | semicolon => cases hnone
  | brace => cases hnone

end Finds

namespace Cursor

variable {cursor : Cursor}

theorem mark_of_mem_gap {c : Char} (h : c ∈ cursor.gap) :
    Text.isBlank c = true ∨ c = '{' ∨ c = ';' := by
  have hfiller : isFiller c = true := List.all_eq_true.1 List.all_takeWhile c h
  simpa only [isFiller, Bool.or_eq_true, beq_iff_eq, or_assoc] using hfiller

/-- A step takes a text off what is left and goes forward by its length. -/
theorem exists_taken_next (cursor : Cursor) :
    ∃ taken, cursor.rest = taken ++ cursor.next.cursor.rest ∧
      cursor.next.cursor.offset = cursor.offset + Text.byteLength taken := by
  have hfinds := cursor.finds_next
  obtain ⟨taken, htaken⟩ := hfinds.exists_taken
  have hoffset := hfinds.offset_add
  rw [htaken, Text.byteLength_append] at hoffset
  refine ⟨cursor.gap ++ taken, ?_, ?_⟩
  · rw [List.append_assoc, ← htaken, gap_append]
  · rw [Text.byteLength_append]
    omega

theorem offset_le_next (cursor : Cursor) : cursor.offset ≤ cursor.next.cursor.offset := by
  obtain ⟨taken, -, hoffset⟩ := cursor.exists_taken_next
  omega

/-- A step with a token passes over the gap and takes the lexeme of the token. -/
theorem next_of_some {token : Token} (h : cursor.next.token? = some token) :
    cursor.offset < cursor.next.cursor.offset ∧
      ∃ lexeme, cursor.rest = cursor.gap ++ lexeme ++ cursor.next.cursor.rest ∧
        token.IsLexeme lexeme cursor.next.cursor.rest := by
  constructor
  · obtain ⟨taken, htaken, hoffset⟩ := cursor.exists_taken_next
    have hlength := length_next_lt (Option.isSome_of_eq_some h)
    rw [htaken, List.length_append] at hlength
    have hne : taken ≠ [] := List.length_pos_iff.1 (by omega)
    have hpos := Text.byteLength_pos hne
    omega
  · obtain ⟨lexeme, hlexeme, htoken⟩ := (lexes_of_next h).exists_lexeme
    refine ⟨lexeme, ?_, htoken⟩
    rw [List.append_assoc, ← hlexeme, gap_append]

/-- A step without a token passes over all that is left. -/
theorem next_of_none (h : cursor.next.token? = none) :
    cursor.next.cursor = ⟨cursor.offset + Text.byteLength cursor.rest, []⟩ := by
  obtain ⟨-, hnext, -⟩ := cursor.finds_next.of_none h
  rw [hnext, Nat.add_assoc, ← Text.byteLength_append, gap_append]

theorem offset_of_mem_events {event : Event} (h : event ∈ cursor.next.events) :
    ∃ place, event.offset? = some place ∧ cursor.offset ≤ place ∧
      place < cursor.next.cursor.offset := by
  obtain ⟨others, hevents, hothers⟩ := cursor.finds_next.exists_events
  rw [hevents] at h
  rcases List.mem_append.1 h with hgap | hother
  · obtain ⟨place, hplace, hle, hlt⟩ := offset_of_mem_strayMarks hgap
    obtain ⟨taken, htaken⟩ := cursor.finds_next.exists_taken
    have hoffset := cursor.finds_next.offset_add
    rw [htaken, Text.byteLength_append] at hoffset
    exact ⟨place, hplace, hle, by omega⟩
  · obtain ⟨hplace, hlt, -⟩ := hothers event hother
    exact ⟨_, hplace, Nat.le_add_right _ _, hlt⟩

/-! ### Several steps -/

theorem next_of_rest_eq_nil (h : cursor.rest = []) : cursor.next = ⟨[], none, cursor⟩ := by
  obtain ⟨offset, rest⟩ := cursor
  subst h
  rfl

theorem skip_of_rest_eq_nil (h : cursor.rest = []) (n : Nat) : cursor.skip n = cursor := by
  induction n with
  | zero => rfl
  | succ n ih => rw [skip, next_of_rest_eq_nil h, ih]

theorem offset_le_skip (cursor : Cursor) (n : Nat) : cursor.offset ≤ (cursor.skip n).offset := by
  induction n generalizing cursor with
  | zero => exact Nat.le_refl _
  | succ n ih => exact Nat.le_trans cursor.offset_le_next (ih cursor.next.cursor)

/-- The tokens after a place are those that the steps from there find, in order. -/
theorem getElem?_map_token_lex (cursor : Cursor) (n : Nat) :
    (cursor.lex.lexemes.map Lexeme.token)[n]? = (cursor.skip n).next.token? := by
  induction cursor using lex.induct generalizing n with
  | case1 cursor hnone =>
    rw [lexemes_lex_of_none hnone, List.map_nil, List.getElem?_nil]
    cases n with
    | zero => exact hnone.symm
    | succ n =>
      have hend : cursor.next.cursor.rest = [] := by rw [next_of_none hnone]
      simp [skip, skip_of_rest_eq_nil hend, next_of_rest_eq_nil hend]
  | case2 cursor token hsome ih =>
    rw [lexemes_lex_of_some hsome, List.map_cons]
    cases n with
    | zero => exact hsome.symm
    | succ n => exact ih n

theorem isSome_skip_iff (cursor : Cursor) (n : Nat) :
    (cursor.skip n).next.token?.isSome = true ↔ n < cursor.lex.lexemes.length := by
  rw [← getElem?_map_token_lex, isSome_getElem?, List.length_map]

theorem mem_map_token_lex_iff {token : Token} (cursor : Cursor) :
    token ∈ cursor.lex.lexemes.map Lexeme.token ↔
      ∃ n, (cursor.skip n).next.token? = some token := by
  simp only [List.mem_iff_getElem?, getElem?_map_token_lex]

theorem LiesIn.next {css : String} (h : cursor.LiesIn css) : cursor.next.cursor.LiesIn css := by
  obtain ⟨before, hcss, hoffset⟩ := h
  obtain ⟨taken, htaken, hnext⟩ := cursor.exists_taken_next
  refine ⟨before ++ taken, ?_, ?_⟩
  · rw [hcss, htaken, List.append_assoc]
  · rw [hnext, hoffset, Text.byteLength_append]

/-- Every step leads from between two characters to between two characters. -/
theorem LiesIn.skip {css : String} (h : cursor.LiesIn css) (n : Nat) :
    (cursor.skip n).LiesIn css := by
  induction n generalizing cursor with
  | zero => exact h
  | succ n ih => exact ih h.next

theorem LiesIn.offset_add {css : String} (h : cursor.LiesIn css) :
    cursor.offset + Text.byteLength cursor.rest = css.utf8ByteSize := by
  obtain ⟨before, hcss, hoffset⟩ := h
  rw [hoffset, ← Text.byteLength_append, ← hcss, Text.byteLength_toList]

/-! ### What is reported -/

theorem log_lex_of_none (h : cursor.next.token? = none) : cursor.lex.log = cursor.next.events := by
  rw [lex]
  split
  · rfl
  · rename_i token htoken
    simp [h] at htoken

theorem log_lex_of_some (h : cursor.next.token?.isSome = true) :
    cursor.lex.log = cursor.next.events ++ cursor.next.cursor.lex.log := by
  rw [lex]
  split
  · rename_i hnone
    simp [hnone] at h
  · simp [Lexing.log]

theorem offset_le_of_mem_log {event : Event} (h : event ∈ cursor.lex.log) :
    ∃ place, event.offset? = some place ∧ cursor.offset ≤ place := by
  induction cursor using lex.induct with
  | case1 cursor hnone =>
    rw [log_lex_of_none hnone] at h
    obtain ⟨place, hplace, hle, -⟩ := offset_of_mem_events h
    exact ⟨place, hplace, hle⟩
  | case2 cursor token hsome ih =>
    rw [log_lex_of_some (Option.isSome_of_eq_some hsome)] at h
    rcases List.mem_append.1 h with hfirst | hlater
    · obtain ⟨place, hplace, hle, -⟩ := offset_of_mem_events hfirst
      exact ⟨place, hplace, hle⟩
    · obtain ⟨place, hplace, hle⟩ := ih hlater
      exact ⟨place, hplace, Nat.le_trans cursor.offset_le_next hle⟩

/-- A report comes from the one step that passes its place, so it is as often in the log as in what
that step reports. -/
theorem count_log {event : Event} {place : Nat} (hplace : event.offset? = some place) {n : Nat}
    (hle : (cursor.skip n).offset ≤ place) (hlt : place < (cursor.skip n).next.cursor.offset) :
    cursor.lex.log.count event = (cursor.skip n).next.events.count event := by
  induction n generalizing cursor with
  | zero =>
    cases htoken : cursor.next.token? with
    | none => rw [log_lex_of_none htoken, skip]
    | some token =>
      have hlater : cursor.next.cursor.lex.log.count event = 0 := by
        rw [List.count_eq_zero]
        intro hmem
        obtain ⟨other, hother, hge⟩ := offset_le_of_mem_log hmem
        obtain rfl := Option.some.inj (hplace.symm.trans hother)
        exact absurd hlt (Nat.not_lt.2 hge)
      rw [log_lex_of_some (Option.isSome_of_eq_some htoken), List.count_append, hlater, skip]
      rfl
  | succ n ih =>
    have hfirst : cursor.next.cursor.offset ≤ place :=
      Nat.le_trans (cursor.next.cursor.offset_le_skip n) hle
    cases htoken : cursor.next.token? with
    | none =>
      -- There is no way forward from the end of the text.
      have hend : cursor.next.cursor.rest = [] := by rw [next_of_none htoken]
      rw [skip, skip_of_rest_eq_nil hend, next_of_rest_eq_nil hend] at hlt
      exact absurd hlt (Nat.not_lt.2 hfirst)
    | some token =>
      have hnone : cursor.next.events.count event = 0 := by
        rw [List.count_eq_zero]
        intro hmem
        obtain ⟨other, hother, -, hother_lt⟩ := offset_of_mem_events hmem
        obtain rfl := Option.some.inj (hplace.symm.trans hother)
        exact absurd hother_lt (Nat.not_lt.2 hfirst)
      rw [log_lex_of_some (Option.isSome_of_eq_some htoken), List.count_append, hnone, ih hle hlt,
        Nat.zero_add, skip]

end Cursor

/-- A report is in the log once, at a certain level. -/
def Lexing.Reports (lexing : Lexing) (level : Level) (event : Event) : Prop :=
  lexing.log.count event = 1 ∧ event.level = level

namespace Cursor

variable {cursor : Cursor}

/-- Each stray mark of a gap is reported once. -/
theorem reports_mark (cursor : Cursor) (n : Nat) {before after : List Char} {mark : Char}
    (hgap : (cursor.skip n).gap = before ++ mark :: after) (hmark : Text.isBlank mark = false) :
    cursor.lex.Reports .trace
      (.strayMark mark ((cursor.skip n).offset + Text.byteLength before)) := by
  obtain ⟨others, hevents, hothers⟩ := (cursor.skip n).finds_next.exists_events
  have hcount : (cursor.skip n).next.events.count
      (.strayMark mark ((cursor.skip n).offset + Text.byteLength before)) = 1 := by
    rw [hevents, List.count_append, hgap, count_strayMarks hmark, List.count_eq_zero.2]
    exact fun hmem => (hothers _ hmem).2.2 _ _ rfl
  obtain ⟨place, hplace, hle, hlt⟩ := offset_of_mem_events (List.count_pos_iff.1 (by
    rw [hcount]
    exact Nat.one_pos))
  exact ⟨(count_log hplace hle hlt).trans hcount, rfl⟩

/-- A run without an end is reported once. -/
theorem reports_unfinished (cursor : Cursor) (n : Nat)
    (hnone : (cursor.skip n).next.token? = none)
    (hne : (cursor.skip n).rest.dropWhile isFiller ≠ []) :
    cursor.lex.Reports .debug
      (.unfinishedText ((cursor.skip n).offset + Text.byteLength (cursor.skip n).gap)
        (String.ofList (Text.trim ((cursor.skip n).rest.dropWhile isFiller)))) := by
  obtain ⟨-, -, hevents⟩ := (cursor.skip n).finds_next.of_none hnone
  have hcount : (cursor.skip n).next.events.count
      (.unfinishedText ((cursor.skip n).offset + Text.byteLength (cursor.skip n).gap)
        (String.ofList (Text.trim ((cursor.skip n).rest.dropWhile isFiller)))) = 1 := by
    rw [hevents hne, List.count_append, List.count_singleton_self, List.count_eq_zero.2]
    -- The stray marks are about the gap, and the run starts after it.
    intro hmem
    obtain ⟨place, hplace, -, hlt⟩ := offset_of_mem_strayMarks hmem
    exact absurd hlt (Option.some.inj hplace ▸ Nat.lt_irrefl _)
  obtain ⟨place, hplace, hle, hlt⟩ := offset_of_mem_events (List.count_pos_iff.1 (by
    rw [hcount]
    exact Nat.one_pos))
  exact ⟨(count_log hplace hle hlt).trans hcount, rfl⟩

theorem liesIn_start (css : String) : (start css).LiesIn css :=
  ⟨[], rfl, rfl⟩

end Cursor

/-- The walk through a style sheet takes a number of steps with a token and then none. It stands
between two characters all the time. Each step passes over a gap of blanks and stray marks; then it
takes the lexeme of its token, or else a run without an end, which is all that is left, so that
nothing more happens after that. Each stray mark and the run are reported once. -/
theorem segments_of_walk (css : String) :
    ∃ count, ∀ n,
      let place := (Cursor.start css).skip n
      (place.next.token?.isSome = true ↔ n < count) ∧
      place.LiesIn css ∧ place.offset ≤ css.utf8ByteSize ∧
      ∃ gap, (∀ c ∈ gap, Text.isBlank c = true ∨ c = '{' ∨ c = ';') ∧
        (∀ before mark after, gap = before ++ mark :: after → mark = '{' ∨ mark = ';' →
          (Lexing.ofText css).Reports .trace
            (.strayMark mark (place.offset + Text.byteLength before))) ∧
        (∀ token, place.next.token? = some token →
          place.offset < place.next.cursor.offset ∧
          ∃ lexeme, place.rest = gap ++ lexeme ++ place.next.cursor.rest ∧
            token.IsLexeme lexeme place.next.cursor.rest) ∧
        (place.next.token? = none →
          place.next.cursor.isAtEnd = true ∧ place.next.cursor.offset = css.utf8ByteSize ∧
          place.next.cursor.next = ⟨[], none, place.next.cursor⟩ ∧
          ∃ run, place.rest = gap ++ run ∧ IsUnfinished run ∧
            (run ≠ [] → (Lexing.ofText css).Reports .debug
              (.unfinishedText (place.offset + Text.byteLength gap)
                (String.ofList (Text.trim run))))) := by
  -- The walk has a step for each lexeme and stays where it is after the last one.
  refine ⟨(Lexing.ofText css).lexemes.length, ?_⟩
  intro n place
  have hlies : place.LiesIn css := (Cursor.liesIn_start css).skip n
  have hsize := hlies.offset_add
  refine ⟨(Cursor.start css).isSome_skip_iff n, hlies, by omega, place.gap,
    fun c hc => Cursor.mark_of_mem_gap hc, ?_, fun token htoken => Cursor.next_of_some htoken, ?_⟩
  · intro before mark after hgap hmark
    refine (Cursor.start css).reports_mark n hgap ?_
    rcases hmark with rfl | rfl <;> decide
  · intro hnone
    have hnext := Cursor.next_of_none hnone
    obtain ⟨hunfinished, -, -⟩ := place.finds_next.of_none hnone
    have hend : place.next.cursor.rest = [] := by rw [hnext]
    refine ⟨?_, ?_, Cursor.next_of_rest_eq_nil hend, _, place.gap_append.symm, hunfinished,
      (Cursor.start css).reports_unfinished n hnone⟩
    · rw [Cursor.isAtEnd, hend]
      rfl
    · rw [hnext]
      exact hsize

/-- A selector after a stray mark, and then text that nothing ends. -/
theorem segments_of_walk_two :
    (Cursor.start "; a \x7b b").next.token? = some (.opening "a") ∧
      0 < (Cursor.start "; a \x7b b").next.cursor.offset ∧
      ((Cursor.start "; a \x7b b").skip 1).next.cursor.offset = 7 := by
  obtain ⟨count, h⟩ := segments_of_walk "; a \x7b b"
  obtain ⟨-, -, -, gap, -, -, hsome, -⟩ := h 0
  obtain ⟨-, -, -, gap, -, -, -, hnone⟩ := h 1
  have htoken : (Cursor.start "; a \x7b b").next.token? = some (.opening "a") := by decide +kernel
  have hlast : ((Cursor.start "; a \x7b b").skip 1).next.token? = none := by decide +kernel
  exact ⟨htoken, (hsome _ htoken).1, (hnone hlast).2.1⟩

end StyleTree
