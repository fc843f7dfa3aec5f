import StyleTree.Assembler
import StyleTree.Css
import StyleTree.Proofs.Text.Trim
import StyleTree.Proofs.Token.Stream

/-!
# Fragments of style sheets

Each condition below says of one line that it is read as intended when nothing else is there. Such a
line is then read in the same way wherever it stands.
-/

namespace StyleTree

theorem trimmed_of_opening_mem {text : List Char} {selector : String}
    (h : .opening selector ∈ tokensOf text) : Text.Trimmed selector.toList := by
  refine forall_mem_tokensOf (P := fun token => ∀ selector, token = .opening selector →
    Text.Trimmed selector.toList) ?_ text _ h selector rfl
  rintro text token rest hlexes selector rfl
  cases hlexes with
  | opening =>
    rw [String.toList_ofList]
    exact Text.trimmed_trim _

/-! ### Marks at the end -/

/-- If a text ends with a mark and no other occurrence of the mark is missing before the one that
is found, then the one that is found is at the end. -/
theorem eq_nil_of_count_le {front rest whole : List Char} {mark : Char}
    (h : front ++ mark :: rest = whole ++ [mark]) (hcount : whole.count mark ≤ front.count mark) :
    rest = [] := by
  rcases List.eq_nil_or_concat rest with hnil | ⟨before, last, rfl⟩
  · exact hnil
  · -- Without its last mark, the text would still hold the mark that was found.
    rw [List.concat_eq_append, ← List.cons_append, ← List.append_assoc] at h
    obtain ⟨hwhole, -⟩ := List.append_inj' h rfl
    rw [← hwhole, List.count_append, List.count_cons_self] at hcount
    omega

/-- What dropping filler leaves of a text is its end, and nothing but filler is before that. -/
theorem exists_filler_append (text : List Char) :
    ∃ filler, (∀ c ∈ filler, isFiller c = true) ∧ text = filler ++ text.dropWhile isFiller :=
  ⟨text.takeWhile isFiller, fun _ hc => List.all_eq_true.1 List.all_takeWhile _ hc,
    List.takeWhile_append_dropWhile.symm⟩

/-- A token that a mark at the end of a text finishes is the same in front of any other text. The
mark is the one that the lexer finds, since the run up to there has no mark less than all that is
before the end. -/
theorem tokensOf_mark_append {whole : List Char} {mark : Char} {token : Token}
    (h : tokensOf (whole ++ [mark]) = [token]) (hkind : ∀ inside, token ≠ .comment inside)
    (hrun : ∀ body rest, Lexes body token rest → tokensOf rest = [] →
      ∃ run, body = run ++ mark :: rest ∧ whole.count mark ≤ run.count mark) (more : List Char) :
    tokensOf (whole ++ mark :: more) = token :: tokensOf more := by
  obtain ⟨rest, hlexes, hrest⟩ := tokensOf_eq_cons_iff.1 h
  obtain ⟨filler, -, hfiller⟩ := exists_filler_append (whole ++ [mark])
  obtain ⟨run, hbody, hcount⟩ := hrun _ rest hlexes hrest
  obtain rfl : rest = [] := by
    rw [hbody, ← List.append_assoc] at hfiller
    refine eq_nil_of_count_le hfiller.symm (Nat.le_trans hcount ?_)
    rw [List.count_append]
    exact Nat.le_add_left _ _
  have happend := tokensOf_append hlexes (fun inside hinside => absurd hinside (hkind inside)) more
  rwa [List.append_assoc] at happend

/-- A single declaration ends with the semicolon at the end of its text, if it has no semicolon
less than the text before that. -/
theorem tokensOf_declaration_append {whole : List Char} {text : String}
    (h : tokensOf (whole ++ [';']) = [.declaration text])
    (hcount : whole.count ';' ≤ text.toList.count ';') (more : List Char) :
    tokensOf (whole ++ ';' :: more) = .declaration text :: tokensOf more := by
  refine tokensOf_mark_append h (by simp) ?_ more
  intro body rest hlexes hrest
  cases hlexes with
  | semicolon _ hrun =>
    refine ⟨_, Scan.eq_append_of_run hrun, Nat.le_trans hcount ?_⟩
    rw [String.toList_ofList]
    exact (Text.trim_sublist _).count_le ';'
  | brace =>
    -- The brace would be a second token.
    rw [tokensOf_closing_cons] at hrest
    exact absurd hrest (List.cons_ne_nil _ _)

/-- A single selector ends with the brace at the end of its text, if it has no brace less than the
text before that. -/
theorem tokensOf_opening_append {whole : List Char} {selector : String}
    (h : tokensOf (whole ++ ['{']) = [.opening selector])
    (hcount : whole.count '{' ≤ selector.toList.count '{') (more : List Char) :
    tokensOf (whole ++ '{' :: more) = .opening selector :: tokensOf more := by
  refine tokensOf_mark_append h (by simp) ?_ more
  intro body rest hlexes _
  cases hlexes with
  | opening _ hrun =>
    refine ⟨_, Scan.eq_append_of_run hrun, Nat.le_trans hcount ?_⟩
    rw [String.toList_ofList]
    exact (Text.trim_sublist _).count_le '{'

/-- A single comment in front of a line break leaves nothing but the line break. -/
theorem tokensOf_comment_append {text : String}
    (h : tokensOf (text.toList ++ ['\n']) = [.comment text]) (more : List Char) :
    tokensOf (text.toList ++ '\n' :: more) = .comment text :: tokensOf more := by
  obtain ⟨rest, hlexes, -⟩ := tokensOf_eq_cons_iff.1 h
  obtain ⟨filler, hslash, hfiller⟩ := exists_filler_append (text.toList ++ ['\n'])
  obtain ⟨hbody, body, htext⟩ : (text.toList ++ ['\n']).dropWhile isFiller = text.toList ++ rest ∧
      ∃ body, text.toList = '/' :: body := by
    generalize (text.toList ++ ['\n']).dropWhile isFiller = body at hlexes
    cases hlexes with
    | comment hclose => simp [Comment.eq_append_of_close? hclose]
    | unclosed => simp
  rw [hbody] at hfiller
  -- The filler and what is left are one character together, and the comment starts at once.
  obtain rfl : rest = ['\n'] := by
    cases filler with
    | nil => simpa using hfiller.symm
    | cons c filler =>
      have hlength := congrArg List.length hfiller
      simp only [List.length_append, List.length_cons, List.length_nil] at hlength
      have hempty : filler = [] := List.eq_nil_of_length_eq_zero (by omega)
      rw [htext, hempty] at hfiller
      obtain rfl : '/' = c := by simpa using congrArg List.head? hfiller
      exact absurd (hslash '/' (by simp)) (by decide)
  have happend := tokensOf_append hlexes (by simp) more
  rw [List.append_assoc] at happend
  exact happend.trans (congrArg _ (tokensOf_filler_cons (by decide) more))

/-- The name and the value of a declaration are what is around one of its colons, trimmed. -/
theorem Declaration.exists_of_nameAndValue? {text name value : List Char}
    (h : nameAndValue? text = some (name, value)) :
    ∃ before after, text = before ++ ':' :: after ∧ name = Text.trim before ∧
      value = Text.trim after := by
  rw [nameAndValue?] at h
  split at h
  · simp at h
  · rename_i before after hcut
    split_ifs at h
    obtain ⟨rfl, rfl⟩ : Text.trim before = name ∧ Text.trim after = value := by simpa using h
    exact ⟨before, after, Enclosure.eq_append_of_cut? hcut, rfl, rfl⟩

/-! ### Lines -/

namespace Css

/-- The line of `text` alone is read as the comment `text`. -/
def IsComment (text : String) : Prop :=
  tokens (text ++ "\n") = [.comment text]

/-- `text` alone is read as the statement `text`. -/
def IsStatement (text : String) : Prop :=
  ∃ content, tokens text = [.declaration content] ∧ text = content ++ ";" ∧
    Declaration.nameAndValue? content.toList = none

/-- `name: value;` alone is read as the property `name` with the value `value`. -/
def IsProperty (name value : String) : Prop :=
  ∃ content, tokens (name ++ ": " ++ value ++ ";") = [.declaration content] ∧
    Declaration.nameAndValue? content.toList = some (name.toList, value.toList)

/-- `key` and an opening brace alone are read as the opening of a block with a selector. -/
def IsHeading (key selector : String) : Prop :=
  tokens (key ++ " \x7b") = [.opening selector]

instance (text : String) : Decidable (IsComment text) :=
  inferInstanceAs (Decidable (tokens (text ++ "\n") = [.comment text]))

instance (key selector : String) : Decidable (IsHeading key selector) :=
  inferInstanceAs (Decidable (tokens (key ++ " \x7b") = [.opening selector]))

/-- Whether a list of tokens is one declaration with a property can be decided. -/
instance (found : List Token) (P : String → Prop) [DecidablePred P] :
    Decidable (∃ content, found = [.declaration content] ∧ P content) :=
  match found with
  | [.declaration content] => decidable_of_iff (P content) (by simp)
  | [] | [.comment _] | [.opening _] | [.closing] | _ :: _ :: _ => isFalse (by simp)

instance (text : String) : Decidable (IsStatement text) :=
  inferInstanceAs (Decidable (∃ content, tokens text = [.declaration content] ∧
    text = content ++ ";" ∧ Declaration.nameAndValue? content.toList = none))

instance (name value : String) : Decidable (IsProperty name value) :=
  inferInstanceAs (Decidable (∃ content,
    tokens (name ++ ": " ++ value ++ ";") = [.declaration content] ∧
      Declaration.nameAndValue? content.toList = some (name.toList, value.toList)))

/-- Neither the tabs before a line nor the line break after it make a token. -/
theorem tokensOf_line_append (depth : Nat) (text more : List Char) :
    tokensOf (line depth text ++ more) = tokensOf (text ++ '\n' :: more) := by
  have htabs : ∀ c ∈ List.replicate depth '\t', isFiller c = true := by
    intro c hc
    obtain rfl := List.eq_of_mem_replicate hc
    decide
  rw [line, List.append_assoc, List.append_assoc, tokensOf_filler_append htabs]
  rfl

theorem tokensOf_newline_cons (more : List Char) : tokensOf ('\n' :: more) = tokensOf more :=
  tokensOf_filler_cons (by decide) more

theorem tokensOf_closing_line (depth : Nat) (more : List Char) :
    tokensOf (line depth ['}'] ++ more) = .closing :: tokensOf more := by
  rw [tokensOf_line_append, List.singleton_append, tokensOf_closing_cons, tokensOf_newline_cons]

theorem IsComment.tokensOf_line {text : String} (h : IsComment text) (depth : Nat)
    (more : List Char) :
    tokensOf (line depth text.toList ++ more) = .comment text :: tokensOf more := by
  rw [tokensOf_line_append]
  refine tokensOf_comment_append ?_ more
  rw [IsComment, tokens_eq_tokensOf, String.toList_append] at h
  exact h

theorem IsStatement.tokensOf_line {text : String} (h : IsStatement text) (depth : Nat)
    (more : List Char) :
    ∃ content, Declaration.ofText content = .statement text ∧
      tokensOf (line depth text.toList ++ more) = .declaration content :: tokensOf more := by
  obtain ⟨content, htokens, rfl, hnone⟩ := h
  refine ⟨content, ?_, ?_⟩
  · rw [Declaration.ofText, hnone]
    exact congrArg _ (String.toList_injective (by simp))
  · rw [tokens_eq_tokensOf, String.toList_append] at htokens
    rw [tokensOf_line_append, String.toList_append, List.append_assoc]
    exact (tokensOf_declaration_append htokens (Nat.le_refl _) _).trans
      (congrArg _ (tokensOf_newline_cons more))

theorem IsProperty.tokensOf_line {name value : String} (h : IsProperty name value) (depth : Nat)
    (more : List Char) :
    ∃ content, Declaration.ofText content = .property name value ∧
      tokensOf (property depth name value ++ more) = .declaration content :: tokensOf more := by
  obtain ⟨content, htokens, hsome⟩ := h
  refine ⟨content, ?_, ?_⟩
  · rw [Declaration.ofText, hsome]
    simp
  · -- Every semicolon of the name and the value is one of the content.
    have hcount : (name.toList ++ [':', ' '] ++ value.toList).count ';' ≤
        content.toList.count ';' := by
      obtain ⟨before, after, hcontent, hname, hvalue⟩ := Declaration.exists_of_nameAndValue? hsome
      have hbefore := (Text.trim_sublist before).count_le ';'
      have hafter := (Text.trim_sublist after).count_le ';'
      simp only [hcontent, hname, hvalue, List.count_append, List.count_cons, List.count_nil]
      simp only [Char.reduceBEq, Bool.false_eq_true, if_false]
      omega
    have hline := tokensOf_declaration_append (by simpa [tokens_eq_tokensOf] using htokens) hcount
    rw [property, tokensOf_line_append, List.append_assoc]
    exact (hline _).trans (congrArg _ (tokensOf_newline_cons more))

theorem IsHeading.trimmed {key selector : String} (h : IsHeading key selector) :
    Text.Trimmed selector.toList := by
  apply trimmed_of_opening_mem
  rw [← tokens_eq_tokensOf, h]
  exact List.mem_singleton_self _

/-- The opening line of a block is followed by its body, with nothing of either read as part of the
other. -/
theorem IsHeading.tokensOf_enclosed {key selector : String} (h : IsHeading key selector)
    (hcount : key.toList.count '{' ≤ selector.toList.count '{') (depth : Nat)
    (body more : List Char) :
    tokensOf (enclosed depth key body ++ more) =
      .opening selector :: tokensOf (body ++ (line depth ['}'] ++ more)) := by
  have hspace : (key.toList ++ [' ']).count '{' ≤ selector.toList.count '{' := by
    simpa [List.count_append] using hcount
  have hline := tokensOf_opening_append (by simpa [IsHeading, tokens_eq_tokensOf] using h) hspace
  rw [enclosed, List.append_assoc, List.append_assoc, tokensOf_line_append]
  have hopen := (hline _).trans
    (congrArg (_ :: ·) (tokensOf_newline_cons (body ++ (line depth ['}'] ++ more))))
  simpa using hopen

end Css

end StyleTree
