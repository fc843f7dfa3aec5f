import StyleTree.Proofs.Selector.Keys
import StyleTree.Proofs.Token.Fragment
import StyleTree.Proofs.Token.Scan

namespace StyleTree

/-- Whether a text starts a run can be told from its front. -/
theorem StartsRun.of_front {front rest : List Char} (h : StartsRun (front ++ rest))
    (hne : front ≠ []) {more : List Char} (hmore : ∀ c ∈ more.head?, c ≠ '*') :
    StartsRun (front ++ more) := by
  obtain ⟨c, others, rfl⟩ := List.exists_cons_of_ne_nil hne
  obtain ⟨d, tail, htext, hfiller, hclosing, hcomment⟩ := h
  obtain ⟨rfl, rfl⟩ := List.cons.inj htext
  refine ⟨c, others ++ more, rfl, hfiller, hclosing, fun body hbody => ?_⟩
  cases others with
  | nil =>
    obtain ⟨rfl, rfl⟩ : c = '/' ∧ more = '*' :: body := by simpa using hbody
    exact hmore '*' rfl rfl
  | cons e others =>
    obtain ⟨rfl, rfl, -⟩ : c = '/' ∧ e = '*' ∧ others ++ more = body := by simpa using hbody
    exact hcomment (others ++ rest) rfl

/-- What a text has from being read as that of a token which `ending` ended. -/
structure IsRunText (ending : Ending) (text : List Char) : Prop where
  /-- There are no blanks around it. -/
  trimmed : Text.Trimmed text
  /-- There is something in it. -/
  ne_nil : text ≠ []
  /-- It starts a run in front of any other text, unless that makes a comment of it. -/
  startsRun : ∀ more : List Char, (∀ c ∈ more.head?, c ≠ '*') → StartsRun (text ++ more)
  /-- No character of it ends the run. -/
  passes : Scan.start.Passes text
  /-- Behind blanks, the run was ended. -/
  ends : ∃ blanks, (∀ c ∈ blanks, Text.isBlank c = true) ∧
    (Scan.start.after (text ++ blanks)).ending? ending.mark = some ending

namespace IsRunText

variable {ending : Ending} {text : List Char}

theorem of_run {body run rest : List Char} (hstart : StartsRun body)
    (hrun : Scan.run .start body = some (run, ending, rest)) :
    IsRunText ending (Text.trim run) := by
  obtain ⟨blanks, hblanks, hsplit⟩ := Text.exists_trim_append (hstart.isBlank_head hrun)
  have hne : Text.trim run ≠ [] := by
    intro hnil
    -- Otherwise the run would start with one of the blanks.
    obtain ⟨c, others, htext⟩ := List.exists_cons_of_ne_nil (hstart.run_ne_nil hrun)
    rw [htext] at hnil hsplit
    rw [hnil, List.nil_append] at hsplit
    have hblank := hblanks c (hsplit ▸ List.mem_cons_self ..)
    have hhead := hstart.isBlank_head hrun c (by rw [htext]; rfl)
    exact absurd (hblank.symm.trans hhead) (by decide)
  obtain ⟨hpasses, hends, hbody⟩ := Scan.run_eq_some_iff.1 hrun
  rw [hsplit] at hpasses hends
  rw [hbody, hsplit, List.append_assoc] at hstart
  exact ⟨Text.trimmed_trim run, hne, fun more hmore => hstart.of_front hne hmore,
    (Scan.passes_append.1 hpasses).1, blanks, hblanks, hends⟩

/-- The blanks before the end make no difference, unless an escape covers the first of them. -/
theorem ending?_after (h : IsRunText ending text)
    (hsettled : (Scan.start.after text).settled.ending? ending.mark =
      (Scan.start.after text).ending? ending.mark) :
    (Scan.start.after text).ending? ending.mark = some ending := by
  obtain ⟨blanks, hblanks, hends⟩ := h.ends
  rw [Scan.after_append] at hends
  by_cases hnil : blanks = []
  · rwa [hnil] at hends
  · have hjoints : ∀ c ∈ blanks, isJoint c = true := by
      intro c hc
      rw [isJoint, hblanks c hc, Bool.true_or]
    rwa [Scan.after_joints (Scan.isSound_start.after text) hnil hjoints, hsettled] at hends

end IsRunText

theorem Lexes.isRunText_of_opening {text rest : List Char} {name : String}
    (h : Lexes text (.opening name) rest) : IsRunText .opening name.toList := by
  cases h with
  | opening hstart hrun =>
    rw [String.toList_ofList]
    exact .of_run hstart hrun

theorem Lexes.exists_isRunText_of_declaration {text rest : List Char} {content : String}
    (h : Lexes text (.declaration content) rest) :
    ∃ ending, IsRunText ending content.toList := by
  cases h with
  | semicolon hstart hrun =>
    rw [String.toList_ofList]
    exact ⟨_, .of_run hstart hrun⟩
  | brace hstart hrun =>
    rw [String.toList_ofList]
    exact ⟨_, .of_run hstart hrun⟩

theorem Lexes.tokensOf_eq {text : List Char} {token : Token} (h : Lexes text token []) :
    tokensOf text = [token] :=
  tokensOf_eq_cons_iff.2 ⟨[], h.dropWhile_eq.symm ▸ h, tokensOf_nil⟩

namespace IsRunText

/-! ### Selectors -/

/-- A selector is read as itself in front of any number of spaces. -/
theorem isHeading {name : String} (h : IsRunText .opening name.toList) (spaces : Nat) :
    Css.IsHeading (Selector.padded name spaces) name := by
  have hspaces : ∀ c ∈ List.replicate (spaces + 1) ' ', Text.isBlank c = true := by
    intro c hc
    rw [List.eq_of_mem_replicate hc]
    decide
  have hjoints : ∀ c ∈ List.replicate (spaces + 1) ' ', isJoint c = true :=
    fun c hc => isJoint_of_isBlank (hspaces c hc)
  have hkey : (Selector.padded name spaces ++ " \x7b").toList =
      name.toList ++ List.replicate (spaces + 1) ' ' ++ ['\x7b'] := by
    simp [List.replicate_succ']
  have hends : (Scan.start.after (name.toList ++ List.replicate (spaces + 1) ' ')).ending? '\x7b' =
      some .opening := by
    rw [Scan.after_append, Scan.after_joints (Scan.isSound_start.after _) (by simp) hjoints,
      Scan.ending?_settled_opening]
    exact h.ending?_after (Scan.ending?_settled_opening _)
  have hrun : Scan.run .start (name.toList ++ List.replicate (spaces + 1) ' ' ++ ['\x7b']) =
      some (name.toList ++ List.replicate (spaces + 1) ' ', .opening, []) :=
    Scan.run_eq_some_iff.2
      ⟨Scan.passes_append.2 ⟨h.passes, Scan.passes_joints hjoints⟩, hends, rfl⟩
  have hstart : StartsRun (name.toList ++ List.replicate (spaces + 1) ' ' ++ ['\x7b']) := by
    rw [List.append_assoc]
    exact h.startsRun _ (by simp [List.replicate_succ])
  rw [Css.IsHeading, tokens_eq_tokensOf, hkey, (Lexes.opening hstart hrun).tokensOf_eq,
    h.trimmed.trim_append_blanks h.ne_nil hspaces, String.ofList_toList]

end IsRunText

/-! ### Declarations -/

namespace Declaration

/-- The name and the value of a declaration are what is around its first exposed colon. -/
theorem nameAndValue?_eq_some_iff {text name value : List Char} :
    nameAndValue? text = some (name, value) ↔
      ∃ before after, ({} : Enclosure).Hides ':' before ∧
        (({} : Enclosure).after before).exposes ':' = true ∧ text = before ++ ':' :: after ∧
        Text.trim before ≠ [] ∧ Text.trim before = name ∧ Text.trim after = value := by
  constructor
  · intro h
    rw [nameAndValue?] at h
    split at h
    · simp at h
    · rename_i before after hcut
      split_ifs at h with hempty
      obtain ⟨rfl, rfl⟩ : Text.trim before = name ∧ Text.trim after = value := by simpa using h
      obtain ⟨hhides, hexposes, htext⟩ := Enclosure.cut?_eq_some_iff.1 hcut
      exact ⟨before, after, hhides, hexposes, htext, hempty, rfl, rfl⟩
  · rintro ⟨before, after, hhides, hexposes, htext, hempty, rfl, rfl⟩
    rw [nameAndValue?, Enclosure.cut?_eq_some_iff.2 ⟨hhides, hexposes, htext⟩]
    exact if_neg hempty

/-- A text divided at its first exposed colon, with blanks between the colon and what is around
it. -/
structure Divides (text name front back value : List Char) : Prop where
  eq_append : text = name ++ (front ++ ':' :: back) ++ value
  ne_nil : name ≠ []
  trimmed_name : Text.Trimmed name
  trimmed_value : Text.Trimmed value
  isBlank_front : ∀ c ∈ front, Text.isBlank c = true
  isBlank_back : ∀ c ∈ back, Text.isBlank c = true
  hides : ({} : Enclosure).Hides ':' (name ++ front)
  exposes : (({} : Enclosure).after (name ++ front)).exposes ':' = true

/-- Nothing but blanks is lost of a trimmed text when it is divided. -/
theorem exists_divides {text name value : List Char} (h : Text.Trimmed text)
    (hsome : nameAndValue? text = some (name, value)) :
    ∃ front back, Divides text name front back value := by
  obtain ⟨before, after, hhides, hexposes, rfl, hempty, rfl, rfl⟩ :=
    nameAndValue?_eq_some_iff.1 hsome
  obtain ⟨front, hfront, hbefore⟩ : ∃ front, (∀ c ∈ front, Text.isBlank c = true) ∧
      before = Text.trim before ++ front := by
    refine Text.exists_trim_append fun c hc => h.1 c ?_
    rw [List.head?_append, hc]
    rfl
  obtain ⟨back, hback, hafter⟩ : ∃ back, (∀ c ∈ back, Text.isBlank c = true) ∧
      after = back ++ Text.trim after := by
    refine Text.exists_append_trim fun c hc => h.2 c ?_
    rw [List.getLast?_append, List.getLast?_cons, hc]
    rfl
  refine ⟨front, back, ?_, hempty, Text.trimmed_trim before, Text.trimmed_trim after, hfront,
    hback, hbefore ▸ hhides, hbefore ▸ hexposes⟩
  rw [List.append_assoc, List.append_assoc, List.cons_append, ← hafter, ← List.append_assoc,
    ← hbefore]

theorem Divides.joints {text name front back value : List Char}
    (h : Divides text name front back value) :
    front ++ ':' :: back ≠ [] ∧ ∀ c ∈ front ++ ':' :: back, isJoint c = true := by
  refine ⟨by simp, fun c hc => ?_⟩
  rcases List.mem_append.1 hc with hc | hc
  · exact isJoint_of_isBlank (h.isBlank_front c hc)
  · rcases List.mem_cons.1 hc with rfl | hc
    · decide
    · exact isJoint_of_isBlank (h.isBlank_back c hc)

/-- Without blanks before it, the colon is still exposed, unless an escape covered one of them. -/
theorem Divides.exposes_name {text name front back value : List Char}
    (h : Divides text name front back value)
    (hescaped : (({} : Enclosure).after name).escaped = false) :
    (({} : Enclosure).after name).exposes ':' = true := by
  have hfront : ∀ c ∈ front, isJoint c = true :=
    fun c hc => isJoint_of_isBlank (h.isBlank_front c hc)
  have hexposes := h.exposes
  rwa [Enclosure.after_append, Enclosure.after_joints (Enclosure.isSound_default.after name)
    hescaped hfront] at hexposes

/-- A name and a value come back from the line that they are written on, if the colon is exposed
behind the name. -/
theorem nameAndValue?_trim_line {name value : List Char} (hname : Text.Trimmed name)
    (hempty : name ≠ []) (hvalue : Text.Trimmed value) (hhides : ({} : Enclosure).Hides ':' name)
    (hexposes : (({} : Enclosure).after name).exposes ':' = true) :
    nameAndValue? (Text.trim (name ++ [':', ' '] ++ value)) = some (name, value) := by
  -- What is trimmed away, if there is no value, is the space after the colon.
  obtain ⟨rest, hrest, htrim⟩ : ∃ rest, Text.trim rest = value ∧
      Text.trim (name ++ [':', ' '] ++ value) = name ++ ':' :: rest := by
    cases value with
    | nil =>
      refine ⟨[], rfl, ?_⟩
      have hcolon : Text.Trimmed [':'] := by decide
      have hspace : ∀ c ∈ [' '], Text.isBlank c = true := List.forall_mem_singleton.2 (by decide)
      have hline := hname.append hcolon hempty (List.cons_ne_nil ':' []) []
      simpa using hline.trim_append_blanks (by simp) hspace
    | cons c others =>
      have hline := hname.append hvalue hempty (List.cons_ne_nil c others) [':', ' ']
      refine ⟨' ' :: c :: others, ?_, by rw [hline.trim_eq, List.append_assoc]; rfl⟩
      exact hvalue.trim_eq
  rw [htrim]
  refine nameAndValue?_eq_some_iff.2 ⟨name, rest, hhides, hexposes, rfl, ?_, hname.trim_eq, hrest⟩
  rwa [hname.trim_eq]

/-- Trimming has taken nothing from a declaration that an escape covered, neither at the end of its
text nor at the end of its name. -/
structure IsWhole (text : String) : Prop where
  /-- No escape at the end of the text covers what follows. -/
  atEnd : (Scan.start.after text.toList).escapes = false
  /-- No escape at the end of the name does. -/
  atName : ∀ pair ∈ nameAndValue? text.toList, (({} : Enclosure).after pair.1).escaped = false

instance (text : String) : Decidable (IsWhole text) :=
  have : Decidable (∀ pair ∈ nameAndValue? text.toList,
      (({} : Enclosure).after pair.1).escaped = false) := Option.decidableForallMem _
  decidable_of_iff
    ((Scan.start.after text.toList).escapes = false ∧
      ∀ pair ∈ nameAndValue? text.toList, (({} : Enclosure).after pair.1).escaped = false)
    ⟨fun ⟨hend, hname⟩ => ⟨hend, hname⟩, fun h => ⟨h.atEnd, h.atName⟩⟩

end Declaration

namespace IsRunText

/-- A text without a name is read as itself in front of a semicolon, if no escape covers the
semicolon. -/
theorem isStatement {text : String} (h : IsRunText .semicolon text.toList)
    (hescapes : (Scan.start.after text.toList).escapes = false)
    (hnone : Declaration.nameAndValue? text.toList = none) : Css.IsStatement (text.push ';') := by
  have hends : (Scan.start.after text.toList).ending? ';' = some .semicolon :=
    h.ending?_after (Scan.ending?_settled hescapes _)
  have hrun : Scan.run .start (text.toList ++ [';']) = some (text.toList, .semicolon, []) :=
    Scan.run_eq_some_iff.2 ⟨h.passes, hends, rfl⟩
  have hlexes := Lexes.semicolon (h.startsRun [';'] (by simp)) hrun
  refine ⟨text, ?_, by rw [String.push_eq_append]; rfl, hnone⟩
  rw [tokens_eq_tokensOf, String.toList_push, hlexes.tokensOf_eq, h.trimmed.trim_eq,
    String.ofList_toList]

/-- The name and the value of a text are read again from their line, if trimming has taken nothing
that an escape covered. -/
theorem isProperty {text name value : String} (h : IsRunText .semicolon text.toList)
    (hwhole : Declaration.IsWhole text)
    (hsome : Declaration.nameAndValue? text.toList = some (name.toList, value.toList)) :
    Css.IsProperty name value := by
  obtain ⟨front, back, hdivides⟩ := Declaration.exists_divides h.trimmed hsome
  have hline : [':', ' '] ≠ [] ∧ ∀ c ∈ [':', ' '], isJoint c = true :=
    ⟨List.cons_ne_nil _ _,
      List.forall_mem_cons.2 ⟨by decide, List.forall_mem_singleton.2 (by decide)⟩⟩
  have hends : (Scan.start.after text.toList).ending? ';' = some .semicolon :=
    h.ending?_after (Scan.ending?_settled hwhole.atEnd _)
  -- Other blanks around the colon lead to the same place, at the start of the value and behind it.
  have hpasses := h.passes
  rw [hdivides.eq_append] at hpasses
  rw [hdivides.eq_append,
    Scan.after_congr_joints Scan.isSound_start hdivides.joints hline] at hends
  have hrun : Scan.run .start (name.toList ++ [':', ' '] ++ value.toList ++ [';']) =
      some (name.toList ++ [':', ' '] ++ value.toList, .semicolon, []) :=
    Scan.run_eq_some_iff.2
      ⟨hpasses.congr_joints Scan.isSound_start hdivides.joints hline, hends, rfl⟩
  have hstart : StartsRun (name.toList ++ [':', ' '] ++ value.toList ++ [';']) := by
    have htext := h.startsRun [] (by simp)
    rw [hdivides.eq_append] at htext
    simp only [List.append_assoc] at htext ⊢
    exact htext.of_front hdivides.ne_nil (by simp)
  refine ⟨String.ofList (Text.trim (name.toList ++ [':', ' '] ++ value.toList)), ?_, ?_⟩
  · rw [tokens_eq_tokensOf, ← (Lexes.semicolon hstart hrun).tokensOf_eq]
    simp
  · rw [String.toList_ofList]
    exact Declaration.nameAndValue?_trim_line hdivides.trimmed_name hdivides.ne_nil
      hdivides.trimmed_value (Enclosure.hides_append.1 hdivides.hides).1
      (hdivides.exposes_name (hwhole.atName (name.toList, value.toList) hsome))

end IsRunText

end StyleTree
