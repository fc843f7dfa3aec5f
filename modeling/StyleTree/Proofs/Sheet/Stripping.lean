import Mathlib.Data.List.DropRight
import StyleTree.Proofs.Assembly.Outcome
import StyleTree.Proofs.Comment
import StyleTree.Proofs.Listing.Parts
import StyleTree.Proofs.Token.Line
import StyleTree.Proofs.Token.Reads

/-!
# Removing comments beforehand

Where comments stand between other tokens only, it makes no difference whether they are removed
before the style sheet is read or passed over when it is put together.
-/

namespace StyleTree

/-- A comment is opened in the text of a selector or declaration. -/
def Token.HoldsOpening : Token → Prop
  | .comment _ => False
  | .opening selector => Comment.Opens selector.toList
  | .closing => False
  | .declaration text => Comment.Opens text.toList

instance : DecidablePred Token.HoldsOpening
  | .comment _ => inferInstanceAs (Decidable False)
  | .opening selector => inferInstanceAs (Decidable (Comment.Opens selector.toList))
  | .closing => inferInstanceAs (Decidable False)
  | .declaration text => inferInstanceAs (Decidable (Comment.Opens text.toList))

/-! ### What is removed from a text -/

/-- Filler is not touched when comments are removed. -/
theorem dropWhile_stripChars (text : List Char) :
    (Comment.stripChars text).dropWhile isFiller =
      (Comment.stripChars (text.dropWhile isFiller)).dropWhile isFiller := by
  obtain ⟨filler, hfiller, htext⟩ := exists_filler_append text
  have hslash : ∀ c ∈ filler, c ≠ '/' := by
    rintro c hc rfl
    exact absurd (hfiller '/' hc) (by decide)
  have hopens : ¬Comment.Opens (filler ++ (text.dropWhile isFiller).take 1) := by
    rw [Comment.opens_append_of_not_slash hslash]
    intro hopens
    have hlength := List.IsInfix.length_le hopens
    rw [List.length_take, List.length_cons, List.length_singleton] at hlength
    omega
  have hstrip := Comment.stripChars_append hopens
  rw [← htext] at hstrip
  rw [hstrip, List.dropWhile_append_of_pos hfiller]

/-- A run without a comment stays, and it is still the mark after it that ends it. -/
theorem StartsRun.stripChars {text run after : List Char} {ending : Ending}
    (hstart : StartsRun text) (hrun : Scan.run .start text = some (run, ending, after))
    (hopens : ¬Comment.Opens (Text.trim run)) :
    StartsRun (Comment.stripChars text) ∧
      Scan.run .start (Comment.stripChars text) =
        some (run, ending, Comment.stripChars after) := by
  have hmark : ending.mark ≠ '*' ∧ ending.mark ≠ '/' := by cases ending <;> decide
  obtain ⟨blanks, hblanks, hsplit⟩ := Text.exists_trim_append (hstart.isBlank_head hrun)
  -- Neither the blanks that were trimmed away nor the mark can go on with an opening.
  have hclean : ¬Comment.Opens (run ++ [ending.mark]) := by
    rw [hsplit, List.append_assoc, Comment.opens_append_of_not_star]
    · exact hopens
    · intro c hc
      rcases List.mem_append.1 hc with hblank | hlast
      · rintro rfl
        exact absurd (hblanks '*' hblank) (by decide)
      · rw [List.mem_singleton.1 hlast]
        exact hmark.1
  obtain ⟨hpasses, hends, rfl⟩ := Scan.run_eq_some_iff.1 hrun
  have hstrip : Comment.stripChars (run ++ ending.mark :: after) =
      run ++ ending.mark :: Comment.stripChars after := by
    rw [Comment.stripChars_append hclean, Comment.stripChars_cons (fun h => hmark.2 h.1)]
  rw [hstrip]
  constructor
  · apply hstart.of_front (hstart.run_ne_nil hrun)
    simpa using hmark.1
  · exact Scan.run_eq_some_iff.2 ⟨hpasses, hends, rfl⟩

/-- A token that is no comment and holds none stays. -/
theorem Lexes.stripChars {text rest : List Char} {token : Token} (h : Lexes text token rest)
    (hkept : token.isKept false = true) (hopens : ¬token.HoldsOpening) :
    Lexes (Comment.stripChars text) token (Comment.stripChars rest) := by
  have hbrace : ∀ rest,
      Comment.stripChars ('\x7d' :: rest) = '\x7d' :: Comment.stripChars rest := by
    intro rest
    exact Comment.stripChars_cons (by simp)
  cases h with
  | closing rest =>
    rw [hbrace]
    exact .closing _
  | comment => simp [Token.isKept] at hkept
  | unclosed => simp [Token.isKept] at hkept
  | opening hstart hrun =>
    rw [Token.HoldsOpening, String.toList_ofList] at hopens
    obtain ⟨hstarts, hruns⟩ := hstart.stripChars hrun hopens
    exact .opening hstarts hruns
  | semicolon hstart hrun =>
    rw [Token.HoldsOpening, String.toList_ofList] at hopens
    obtain ⟨hstarts, hruns⟩ := hstart.stripChars hrun hopens
    exact .semicolon hstarts hruns
  | brace hstart hrun =>
    rw [Token.HoldsOpening, String.toList_ofList] at hopens
    obtain ⟨hstarts, hruns⟩ := hstart.stripChars hrun hopens
    rw [hbrace]
    exact .brace hstarts hruns

/-- Removing comments leaves all other tokens, and also what is left behind them, if comments are
opened between tokens only. -/
theorem Reads.stripChars {text remainder : List Char} {found : List Token}
    (h : Reads text found remainder) (hfound : ∀ token ∈ found, ¬token.HoldsOpening)
    (hremainder : ¬Comment.Opens remainder) :
    ∃ others, Reads (Comment.stripChars text) others remainder ∧
      others.filter (Token.isKept false) = found.filter (Token.isKept false) := by
  induction h with
  | @done text hend =>
    refine ⟨[], (Reads.done hend).congr ?_, rfl⟩
    rw [dropWhile_stripChars, Comment.stripChars_eq_self hremainder, List.dropWhile_idempotent]
  | @token text rest remainder token found hlexes hrest ih =>
    obtain ⟨hopens, hlater⟩ := List.forall_mem_cons.1 hfound
    obtain ⟨others, hothers, hsame⟩ := ih hlater hremainder
    have hdrop := dropWhile_stripChars text
    cases hkept : token.isKept false with
    | true =>
      have hstays := hlexes.stripChars hkept hopens
      rw [← hstays.dropWhile_eq, ← hdrop] at hstays
      refine ⟨token :: others, .token hstays hothers, ?_⟩
      rw [List.filter_cons_of_pos hkept, List.filter_cons_of_pos hkept, hsame]
    | false =>
      rw [List.filter_cons_of_neg (by simp [hkept])]
      generalize text.dropWhile isFiller = body at hlexes hdrop
      cases hlexes with
      | comment hclose =>
        -- All of it is removed, and what comes next is read instead.
        rw [Comment.stripChars_comment hclose] at hdrop
        exact ⟨others, hothers.congr hdrop, hsame⟩
      | unclosed hclose =>
        -- None of it is removed, and it is the last token.
        have hstays := Lexes.unclosed hclose
        rw [Comment.stripChars_unclosed hclose, hstays.dropWhile_eq] at hdrop
        rw [← hdrop] at hstays
        refine ⟨_ :: found, .token hstays hrest, ?_⟩
        rw [List.filter_cons_of_neg (by simp [Token.isKept])]
      | closing => simp [Token.isKept] at hkept
      | opening => simp [Token.isKept] at hkept
      | semicolon => simp [Token.isKept] at hkept
      | brace => simp [Token.isKept] at hkept

/-! ### What is passed over -/

/-- Tokens of comments make no difference where comments are not taken in. -/
theorem assembled_filter_isKept {β : Type} {assembler : Assembler β}
    (hcomment : ∀ block text, assembler.addComment block text = block) (limit : UInt64)
    (tokens : List Token) :
    assembled assembler limit (tokens.filter (Token.isKept false)) =
      assembled assembler limit tokens := by
  have hrun : ∀ assembly : Assembly β,
      (tokens.filter (Token.isKept false)).foldlM (Assembly.take assembler limit) assembly =
        tokens.foldlM (Assembly.take assembler limit) assembly := by
    induction tokens with
    | nil => exact fun _ => rfl
    | cons token rest ih =>
      intro assembly
      cases hkept : token.isKept false with
      | true =>
        rw [List.filter_cons_of_pos hkept, List.foldlM_cons, List.foldlM_cons]
        exact congrArg _ (funext ih)
      | false =>
        obtain ⟨text, rfl⟩ : ∃ text, token = .comment text := by
          cases token <;> simp_all [Token.isKept]
        rw [List.filter_cons_of_neg (by simp [hkept]), List.foldlM_cons, Assembly.take_comment,
          hcomment]
        exact ih assembly
  rw [assembled, assembled, hrun]

/-- Where comments are opened between tokens only, removing them makes no difference to what passes
them over. -/
theorem assembled_strip {β : Type} {assembler : Assembler β}
    (hcomment : ∀ block text, assembler.addComment block text = block) (limit : UInt64)
    {css : String} (htokens : ∀ token ∈ tokens css, ¬token.HoldsOpening)
    (hremainder : ¬Comment.Opens (unfinished css.toList)) :
    assembled assembler limit (tokens (Comment.strip css)) =
      assembled assembler limit (tokens css) := by
  obtain ⟨others, hothers, hsame⟩ := (reads_tokensOf css.toList).stripChars htokens hremainder
  have hstripped : tokens (Comment.strip css) = others := by
    rw [tokens_eq_tokensOf, Comment.strip, String.toList_ofList, hothers.eq.1]
  rw [hstripped, ← assembled_filter_isKept hcomment, hsame, assembled_filter_isKept hcomment,
    tokens_eq_tokensOf]

namespace Sheet

/-- Where comments are opened between tokens only, it makes no difference whether they are removed
before a style sheet is read or passed over after that. The last of them need not have an end. -/
theorem parse_stripComments {css : String} (htokens : ∀ token ∈ tokens css, ¬token.HoldsOpening)
    (hremainder : ¬Comment.Opens (unfinished css.toList)) (settings : Settings)
    (hcomments : settings.comments = false) :
    parse { settings with stripComments := true } css =
      parse { settings with stripComments := false } css := by
  have hkeeps : ∀ strip,
      ({ settings with stripComments := strip } : Settings).keepsComments = false := by
    intro strip
    simp [Settings.keepsComments, hcomments]
  by_cases hordered : settings.ordered = true
  · have hlisted : ∀ strip, ({ settings with stripComments := strip } : Settings).ordered = true :=
      fun _ => hordered
    rw [parse_ordered (hlisted true), parse_ordered (hlisted false), hkeeps, hkeeps]
    exact congrArg _ (assembled_strip (fun _ _ => rfl) settings.maxDepth htokens hremainder)
  · have hkeyed : ∀ strip, ({ settings with stripComments := strip } : Settings).ordered = false :=
      fun _ => Bool.eq_false_iff.2 hordered
    rw [parse_keyed (hkeyed true), parse_keyed (hkeyed false)]
    exact congrArg _ (assembled_strip (fun _ _ => rfl) settings.maxDepth htokens hremainder)

/-- A style sheet with comments next to each other, next to slashes and asterisks and next to stray
marks. One of them starts with a slash, and the last one has no end. -/
def adjacentComments : String :=
  "/*a*//**/ \x7b;\x7d *c/\x7b/*/ \x7b */ d: * /; \x7d/*\x7d*/*: 1;/* f /* \x7b"

theorem parse_stripComments_adjacent :
    (∀ token ∈ tokens adjacentComments, ¬token.HoldsOpening) ∧
      ¬Comment.Opens (unfinished adjacentComments.toList) ∧
      parse { ordered := true, stripComments := true } adjacentComments =
        .ok (.listed [.rule "*c/" [.property "d" "* /"], .property "*" "1"]) ∧
      parse { stripComments := true } adjacentComments =
        .ok (.keyed ⟨[("*c/", ⟨[], [("d", .once "* /")], []⟩)], [("*", .once "1")], []⟩) := by
  have htokens : ∀ token ∈ tokens adjacentComments, ¬token.HoldsOpening := by decide +kernel
  have hremainder : ¬Comment.Opens (unfinished adjacentComments.toList) := by decide +kernel
  have hlisted : parse { ordered := true } adjacentComments =
      .ok (.listed [.rule "*c/" [.property "d" "* /"], .property "*" "1"]) := by decide +kernel
  have hkeyed : parse {} adjacentComments =
      .ok (.keyed ⟨[("*c/", ⟨[], [("d", .once "* /")], []⟩)], [("*", .once "1")], []⟩) := by
    decide +kernel
  refine ⟨htokens, hremainder, ?_, ?_⟩
  · rw [← hlisted]
    exact parse_stripComments htokens hremainder { ordered := true } rfl
  · rw [← hkeyed]
    exact parse_stripComments htokens hremainder {} rfl

end Sheet

end StyleTree
