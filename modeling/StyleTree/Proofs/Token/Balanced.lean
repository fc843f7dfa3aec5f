import StyleTree.Proofs.Token.Line

namespace StyleTree

/-- Whether a character opens or ends a block. -/
def isBrace (c : Char) : Bool :=
  c == '\x7b' || c == '\x7d'

/-- Whether a character has no meaning in a value. A semicolon still has one outside of brackets. -/
def isPlain (c : Char) : Bool :=
  !(isDelimiter c || isBrace c)

/-- Whether a character is an ASCII letter, an ASCII digit, a hyphen or an underscore. -/
def isNameChar (c : Char) : Bool :=
  ('a' ≤ c && c ≤ 'z') || ('A' ≤ c && c ≤ 'Z') || ('0' ≤ c && c ≤ '9') || c == '-' || c == '_'

/-- The contents of a string: characters without meaning and escapes. -/
inductive IsQuoted (quote : Char) : List Char → Prop where
  | nil : IsQuoted quote []
  | plain {c : Char} {rest : List Char} (hc : c ≠ quote ∧ c ≠ '\\') (hbrace : isBrace c = false)
    (h : IsQuoted quote rest) : IsQuoted quote (c :: rest)
  | escape {c : Char} {rest : List Char} (hbrace : isBrace c = false) (h : IsQuoted quote rest) :
    IsQuoted quote ('\\' :: c :: rest)

/-- Values in which strings and brackets are closed and no comment is opened outside of strings.
Semicolons may stand in brackets, where `grouped` is true, and nowhere else. -/
inductive IsBalanced : Bool → List Char → Prop where
  | nil {grouped : Bool} : IsBalanced grouped []
  | plain {grouped : Bool} {c : Char} {rest : List Char} (hc : isPlain c = true)
    (hsemicolon : c = ';' → grouped = true) (hslash : c = '/' → rest.head? ≠ some '*')
    (h : IsBalanced grouped rest) : IsBalanced grouped (c :: rest)
  | escape {grouped : Bool} {c : Char} {rest : List Char} (hbrace : isBrace c = false)
    (hslash : c = '/' → rest.head? ≠ some '*') (h : IsBalanced grouped rest) :
    IsBalanced grouped ('\\' :: c :: rest)
  | string {grouped : Bool} {quote : Char} {content rest : List Char}
    (hquote : quote = '"' ∨ quote = '\'') (hcontent : IsQuoted quote content)
    (h : IsBalanced grouped rest) : IsBalanced grouped (quote :: (content ++ quote :: rest))
  | group {grouped : Bool} {opener closer : Char} {content rest : List Char}
    (hpair : opener = '(' ∧ closer = ')' ∨ opener = '[' ∧ closer = ']')
    (hcontent : IsBalanced true content) (h : IsBalanced grouped rest) :
    IsBalanced grouped (opener :: (content ++ closer :: rest))

theorem isBrace_of_isPlain {c : Char} (h : isPlain c = true) : isBrace c = false := by
  simp_all [isPlain]

theorem ne_of_isDelimiter {c d : Char} (h : isDelimiter c = true) (hd : isDelimiter d = false) :
    c ≠ d := by
  rintro rfl
  exact absurd (h.symm.trans hd) (by decide)

/-! ### The scanner -/

theorem Enclosure.next_of_isPlain {c : Char} (h : isPlain c = true) (depth : Nat) :
    (⟨depth, none, false⟩ : Enclosure).next c = ⟨depth, none, false⟩ := by
  have hdelimiter : isDelimiter c = false := by simp_all [isPlain]
  exact next_of_isDelimiter_eq_false (by simp [IsSound]) hdelimiter

namespace Scan

variable {scan : Scan}

/-- What ends no run: anything but a brace or an exposed semicolon. -/
theorem ending?_eq_none {enclosure : Enclosure} (h : scan.enclosure? = some enclosure) {c : Char}
    (hbrace : isBrace c = false) (hsemicolon : c = ';' → enclosure.exposes c = false) :
    scan.ending? c = none := by
  simp only [isBrace, Bool.or_eq_false_iff, beq_eq_false_iff_ne] at hbrace
  have hexposed : ¬(c = ';' ∧ enclosure.exposes c = true) := by
    rintro ⟨hc, hexposes⟩
    exact absurd (hexposes.symm.trans (hsemicolon hc)) (by decide)
  simp [ending?, h, hbrace, hexposed]

/-- In strings and behind a backslash, only braces end a run. -/
theorem ending?_covered {enclosure : Enclosure} (h : scan.enclosure? = some enclosure)
    (hcovered : enclosure.escaped = true ∨ enclosure.quote.isSome = true) {c : Char}
    (hbrace : isBrace c = false) : scan.ending? c = none := by
  refine ending?_eq_none h hbrace fun _ => ?_
  rcases hcovered with hescaped | hquote
  · simp [Enclosure.exposes, hescaped]
  · simp [Enclosure.exposes, Option.isSome_iff_ne_none.1 hquote]

/-- Delimiters end no run and open no comment. -/
theorem next_delimiter {enclosure : Enclosure} (h : scan.enclosure? = some enclosure) {c : Char}
    (hc : isDelimiter c = true) :
    scan.ending? c = none ∧ scan.next c = .text (enclosure.next c) := by
  have hne : ∀ d, isDelimiter d = false → c ≠ d := fun d hd => ne_of_isDelimiter hc hd
  have hbrace : isBrace c = false := by
    simp [isBrace, hne '\x7b' (by decide), hne '\x7d' (by decide)]
  exact ⟨ending?_eq_none h hbrace fun heq => absurd heq (hne ';' (by decide)),
    next_eq_text h (hne '/' (by decide)) (hne '*' (by decide))⟩

/-- What two delimiters enclose is passed over with them, if the second one closes what the first
one opened. -/
theorem passes_enclosed {outer opened inner : Enclosure} (h : scan.enclosure? = some outer)
    {opener closer : Char} (hopener : isDelimiter opener = true)
    (hcloser : isDelimiter closer = true) (hopens : outer.next opener = opened)
    (hcloses : inner.next closer = outer) {content rest : List Char}
    (hcontent : (text opened).Passes content)
    (hinner : ((text opened).after content).enclosure? = some inner)
    (hrest : (text outer).Passes rest)
    (houter : ((text outer).after rest).enclosure? = some outer) :
    scan.Passes (opener :: (content ++ closer :: rest)) ∧
      (scan.after (opener :: (content ++ closer :: rest))).enclosure? = some outer := by
  obtain ⟨hbefore, hnext⟩ := next_delimiter h hopener
  obtain ⟨hbehind, hlast⟩ := next_delimiter hinner hcloser
  rw [hopens] at hnext
  rw [hcloses] at hlast
  rw [Passes, passes_append, Passes, after_cons, after_append, after_cons, hnext, hlast]
  exact ⟨⟨hbefore, hcontent, hbehind, hrest⟩, houter⟩

end Scan

/-- The scanner stays in a string along its contents. -/
theorem IsQuoted.passes {quote : Char} {content : List Char} (h : IsQuoted quote content)
    (depth : Nat) :
    (Scan.text ⟨depth, some quote, false⟩).Passes content ∧
      (Scan.text ⟨depth, some quote, false⟩).after content =
        .text ⟨depth, some quote, false⟩ := by
  induction h with
  | nil => exact ⟨trivial, rfl⟩
  | @plain c rest hc hbrace _ ih =>
    have hnext : (Scan.text ⟨depth, some quote, false⟩).next c =
        .text ⟨depth, some quote, false⟩ := by
      simp [Scan.next, Scan.nextInText, Enclosure.inString, Enclosure.next, hc]
    have hends : (Scan.text ⟨depth, some quote, false⟩).ending? c = none :=
      Scan.ending?_covered rfl (.inr rfl) hbrace
    rw [Scan.Passes, Scan.after_cons, hnext]
    exact ⟨⟨hends, ih.1⟩, ih.2⟩
  | @escape c rest hbrace _ ih =>
    obtain ⟨hends, hbackslash⟩ : (Scan.text ⟨depth, some quote, false⟩).ending? '\\' = none ∧
        (Scan.text ⟨depth, some quote, false⟩).next '\\' = .text ⟨depth, some quote, true⟩ :=
      Scan.next_delimiter (Scan.enclosure?_text ⟨depth, some quote, false⟩) (by decide)
    have hcovered : (Scan.text ⟨depth, some quote, true⟩).ending? c = none :=
      Scan.ending?_covered rfl (.inl rfl) hbrace
    have hnext : (Scan.text ⟨depth, some quote, true⟩).next c =
        .text ⟨depth, some quote, false⟩ := by
      simp [Scan.next, Scan.nextInText, Enclosure.inString, Enclosure.next]
    rw [Scan.Passes, Scan.after_cons, hbackslash, Scan.Passes, Scan.after_cons, hnext]
    exact ⟨⟨hends, hcovered, ih.1⟩, ih.2⟩

/-- The scanner passes over a balanced value and is then where it was. -/
theorem IsBalanced.passes {grouped : Bool} {text : List Char} (h : IsBalanced grouped text)
    {scan : Scan} {depth : Nat} (hscan : scan.enclosure? = some ⟨depth, none, false⟩)
    (hdepth : grouped = true → depth ≠ 0) (hopen : ∀ c ∈ text.head?, scan.opened? c = none) :
    scan.Passes text ∧ (scan.after text).enclosure? = some ⟨depth, none, false⟩ := by
  induction h generalizing scan depth with
  | nil => exact ⟨trivial, hscan⟩
  | @plain grouped c rest hc hsemicolon hslash _ ih =>
    have hopened := hopen c rfl
    have hends : scan.ending? c = none := by
      refine Scan.ending?_eq_none hscan (isBrace_of_isPlain hc) fun heq => ?_
      simp [Enclosure.exposes, hdepth (hsemicolon heq)]
    have hnext : (scan.next c).enclosure? = some ⟨depth, none, false⟩ := by
      rw [Scan.enclosure?_next hscan hopened, Enclosure.next_of_isPlain hc]
    obtain ⟨hpasses, hafter⟩ := ih hnext hdepth fun d hd => by
      rw [Scan.next_eq_nextInText hscan hopened]
      exact Scan.opened?_nextInText fun hc _ hstar => hslash hc (hstar ▸ hd)
    exact ⟨⟨hends, hpasses⟩, hafter⟩
  | @escape grouped c rest hbrace hslash _ ih =>
    obtain ⟨hends, hbackslash⟩ : scan.ending? '\\' = none ∧
        scan.next '\\' = .text ⟨depth, none, true⟩ := Scan.next_delimiter hscan (by decide)
    have hcovered : (Scan.text ⟨depth, none, true⟩).ending? c = none :=
      Scan.ending?_covered rfl (.inl rfl) hbrace
    have hnext : ((Scan.text ⟨depth, none, true⟩).next c).enclosure? =
        some ⟨depth, none, false⟩ := Scan.enclosure?_nextInText _ c
    obtain ⟨hpasses, hafter⟩ := ih hnext hdepth fun d hd =>
      Scan.opened?_nextInText fun hc _ hstar => hslash hc (hstar ▸ hd)
    rw [Scan.Passes, Scan.after_cons, hbackslash]
    exact ⟨⟨hends, hcovered, hpasses⟩, hafter⟩
  | @string grouped quote content rest hquote hcontent _ ih =>
    obtain ⟨hdelimiter, hopens, hcloses⟩ : isDelimiter quote = true ∧
        (⟨depth, none, false⟩ : Enclosure).next quote = ⟨depth, some quote, false⟩ ∧
        (⟨depth, some quote, false⟩ : Enclosure).next quote = ⟨depth, none, false⟩ := by
      rcases hquote with rfl | rfl <;> simp [isDelimiter, Enclosure.next, Enclosure.isQuote]
    obtain ⟨hinside, hend⟩ := hcontent.passes depth
    have hinner : ((Scan.text ⟨depth, some quote, false⟩).after content).enclosure? =
        some ⟨depth, some quote, false⟩ := by
      rw [hend, Scan.enclosure?_text]
    obtain ⟨hpasses, hafter⟩ := ih (Scan.enclosure?_text _) hdepth fun _ _ => rfl
    exact Scan.passes_enclosed hscan hdelimiter hdelimiter hopens hcloses hinside hinner hpasses
      hafter
  | @group grouped opener closer content rest hpair _ _ ihcontent ih =>
    obtain ⟨hopener, hcloser, hopens, hcloses⟩ : isDelimiter opener = true ∧
        isDelimiter closer = true ∧
        (⟨depth, none, false⟩ : Enclosure).next opener = ⟨depth + 1, none, false⟩ ∧
        (⟨depth + 1, none, false⟩ : Enclosure).next closer = ⟨depth, none, false⟩ := by
      rcases hpair with ⟨rfl, rfl⟩ | ⟨rfl, rfl⟩ <;>
        simp [isDelimiter, Enclosure.next, Enclosure.isQuote, Enclosure.isOpener,
          Enclosure.isCloser]
    -- In the group one bracket more is open, so that semicolons have no meaning there.
    obtain ⟨hinside, hinner⟩ := ihcontent (Scan.enclosure?_text ⟨depth + 1, none, false⟩)
      (fun _ => Nat.succ_ne_zero depth) fun _ _ => rfl
    obtain ⟨hpasses, hafter⟩ := ih (Scan.enclosure?_text _) hdepth fun _ _ => rfl
    exact Scan.passes_enclosed hscan hopener hcloser hopens hcloses hinside hinner hpasses hafter

/-! ### Declarations -/

theorem ne_of_isNameChar {c d : Char} (h : isNameChar c = true) (hd : isNameChar d = false) :
    c ≠ d := by
  rintro rfl
  exact absurd (h.symm.trans hd) (by decide)

theorem isPlain_of_isNameChar {c : Char} (h : isNameChar c = true) : isPlain c = true := by
  have hne : ∀ d, isNameChar d = false → c ≠ d := fun d hd => ne_of_isNameChar h hd
  have hdelimiter : isDelimiter c = false := by
    simp [isDelimiter, Enclosure.isQuote, Enclosure.isOpener, Enclosure.isCloser,
      hne '"' (by decide), hne '\'' (by decide), hne '(' (by decide), hne '[' (by decide),
      hne ')' (by decide), hne ']' (by decide), hne '\\' (by decide)]
  have hbrace : isBrace c = false := by
    simp [isBrace, hne '\x7b' (by decide), hne '\x7d' (by decide)]
  rw [isPlain, hdelimiter, hbrace]
  rfl

theorem isBlank_of_isNameChar {c : Char} (h : isNameChar c = true) : Text.isBlank c = false := by
  have hbounds : 0x2D ≤ c.toNat ∧ c.toNat ≤ 0x7A := by
    simp only [isNameChar, Bool.or_eq_true, Bool.and_eq_true, decide_eq_true_eq, beq_iff_eq,
      Char.le_def, UInt32.le_iff_toNat_le, Char.reduceVal, UInt32.reduceToNat, Char.toNat_val] at h
    rcases h with (h | rfl) | rfl
    · omega
    · decide
    · decide
  have houtside : ∀ range ∈ Text.blankRanges, range.2 < 0x2D ∨ 0x7A < range.1 := by decide
  rw [Text.isBlank, List.any_eq_false]
  intro range hrange
  have hrange := houtside range hrange
  simp only [Bool.and_eq_true, decide_eq_true_eq]
  omega

theorem startsRun_of_isNameChar {c : Char} (h : isNameChar c = true) (rest : List Char) :
    StartsRun (c :: rest) := by
  refine ⟨c, rest, rfl, ?_, ne_of_isNameChar h (by decide), fun body hbody => ?_⟩
  · simp [isFiller, isBlank_of_isNameChar h, ne_of_isNameChar (d := '\x7b') h (by decide),
      ne_of_isNameChar (d := ';') h (by decide)]
  · exact ne_of_isNameChar h (by decide) (List.cons.inj hbody).1

theorem trimmed_of_isNameChar {name : List Char} (h : ∀ c ∈ name, isNameChar c = true) :
    Text.Trimmed name :=
  ⟨fun c hc => isBlank_of_isNameChar (h c (List.mem_of_mem_head? hc)),
    fun c hc => isBlank_of_isNameChar (h c (List.mem_of_mem_getLast? hc))⟩

theorem Enclosure.after_of_isPlain {text : List Char} (h : ∀ c ∈ text, isPlain c = true)
    (depth : Nat) : (⟨depth, none, false⟩ : Enclosure).after text = ⟨depth, none, false⟩ := by
  induction text with
  | nil => rfl
  | cons c rest ih =>
    obtain ⟨hc, hrest⟩ := List.forall_mem_cons.1 h
    rw [after_cons, next_of_isPlain hc, ih hrest]

theorem IsBalanced.cons {grouped : Bool} {c : Char} {rest : List Char} (h : IsBalanced grouped rest)
    (hc : isPlain c = true) (hsemicolon : c ≠ ';') (hslash : c ≠ '/') :
    IsBalanced grouped (c :: rest) :=
  .plain hc (fun heq => absurd heq hsemicolon) (fun heq => absurd heq hslash) h

theorem IsBalanced.of_isPlain {grouped : Bool} {text : List Char}
    (h : ∀ c ∈ text, isPlain c = true ∧ c ≠ ';' ∧ c ≠ '/') : IsBalanced grouped text := by
  induction text with
  | nil => exact .nil
  | cons c rest ih =>
    obtain ⟨⟨hplain, hsemicolon, hslash⟩, hrest⟩ := List.forall_mem_cons.1 h
    exact (ih hrest).cons hplain hsemicolon hslash

/-- A name in front of a value leaves it balanced. -/
theorem IsBalanced.line {name value : List Char} (hname : ∀ c ∈ name, isNameChar c = true)
    (h : IsBalanced false value) : IsBalanced false (name ++ [':', ' '] ++ value) := by
  induction name with
  | nil =>
    have hspace : IsBalanced false (' ' :: value) := h.cons (by decide) (by decide) (by decide)
    exact hspace.cons (by decide) (by decide) (by decide)
  | cons c rest ih =>
    obtain ⟨hc, hrest⟩ := List.forall_mem_cons.1 hname
    exact (ih hrest).cons (isPlain_of_isNameChar hc) (ne_of_isNameChar hc (by decide))
      (ne_of_isNameChar hc (by decide))

/-- A declaration with a balanced value is one token, and it is divided into its name and its
value. -/
theorem tokens_balanced {name value : String} (hname : name ≠ "")
    (hchars : ∀ c ∈ name.toList, isNameChar c = true) (hvalue : value ≠ "")
    (htrimmed : Text.Trimmed value.toList) (hbalanced : IsBalanced false value.toList) :
    tokens (name ++ ": " ++ value ++ ";") = [.declaration (name ++ ": " ++ value)] ∧
      Declaration.nameAndValue? (name ++ ": " ++ value).toList =
        some (name.toList, value.toList) ∧
      Declaration.ofText (name ++ ": " ++ value) = .property name value := by
  have hline : (name ++ ": " ++ value).toList = name.toList ++ [':', ' '] ++ value.toList := by
    simp
  have hnonempty : name.toList ≠ [] ∧ value.toList ≠ [] := by simp [hname, hvalue]
  have htrimmedName := trimmed_of_isNameChar hchars
  have htrim : Text.trim (name.toList ++ [':', ' '] ++ value.toList) =
      name.toList ++ [':', ' '] ++ value.toList :=
    (htrimmedName.append htrimmed hnonempty.1 hnonempty.2 [':', ' ']).trim_eq
  -- The line starts a run, and nothing ends it before the semicolon.
  have hstart : StartsRun (name.toList ++ [':', ' '] ++ value.toList ++ [';']) := by
    obtain ⟨c, rest, hcons⟩ := List.exists_cons_of_ne_nil hnonempty.1
    rw [hcons] at hchars ⊢
    exact startsRun_of_isNameChar (hchars c (List.mem_cons_self ..)) _
  obtain ⟨hpasses, hafter⟩ := (hbalanced.line hchars).passes (Scan.enclosure?_text {})
    (fun h => absurd h (by decide)) fun _ _ => rfl
  have hends : (Scan.start.after (name.toList ++ [':', ' '] ++ value.toList)).ending? ';' =
      some .semicolon := by
    rw [Scan.ending?, Scan.start, hafter]
    decide
  have hrun : Scan.run .start (name.toList ++ [':', ' '] ++ value.toList ++ [';']) =
      some (name.toList ++ [':', ' '] ++ value.toList, .semicolon, []) :=
    Scan.run_eq_some_iff.2 ⟨hpasses, hends, rfl⟩
  have hplain := Enclosure.after_of_isPlain (fun c hc => isPlain_of_isNameChar (hchars c hc)) 0
  have hpair : Declaration.nameAndValue? (name ++ ": " ++ value).toList =
      some (name.toList, value.toList) := by
    rw [hline, ← htrim]
    refine Declaration.nameAndValue?_trim_line htrimmedName hnonempty.1 htrimmed
      (Enclosure.hides_of_not_mem (fun hcolon => ?_) _) ?_
    · exact absurd (hchars ':' hcolon) (by decide)
    · rw [hplain]
      decide
  refine ⟨?_, hpair, ?_⟩
  · have hsemicolon : (name ++ ": " ++ value ++ ";").toList =
        name.toList ++ [':', ' '] ++ value.toList ++ [';'] := by
      rw [String.toList_append, hline]
      rfl
    rw [tokens_eq_tokensOf, hsemicolon, (Lexes.semicolon hstart hrun).tokensOf_eq, htrim, ← hline,
      String.ofList_toList]
  · rw [Declaration.ofText, hpair]
    simp

/-- A string with separators and the opening of a comment, then brackets in brackets with separators
between them, then an escaped quote. -/
theorem tokens_balanced_nested :
    IsBalanced false "\"/*:;\"(;[,:])\\\"é".toList ∧
      tokens ("x-1_B" ++ ": " ++ "\"/*:;\"(;[,:])\\\"é" ++ ";") =
        [.declaration ("x-1_B" ++ ": " ++ "\"/*:;\"(;[,:])\\\"é")] ∧
      Declaration.ofText ("x-1_B" ++ ": " ++ "\"/*:;\"(;[,:])\\\"é") =
        .property "x-1_B" "\"/*:;\"(;[,:])\\\"é" := by
  have hstring : IsQuoted '"' ['/', '*', ':', ';'] :=
    .plain (by decide) (by decide) <| .plain (by decide) (by decide) <|
      .plain (by decide) (by decide) <| .plain (by decide) (by decide) .nil
  have hinner : IsBalanced true [',', ':'] :=
    .plain (by decide) (by decide) (by decide) <| .plain (by decide) (by decide) (by decide) .nil
  have houter : IsBalanced true (';' :: '[' :: ([',', ':'] ++ ']' :: [])) :=
    .plain (by decide) (by decide) (by decide) <| .group (.inr ⟨rfl, rfl⟩) hinner .nil
  have hend : IsBalanced false ['\\', '"', 'é'] :=
    .escape (by decide) (by decide) <| .plain (by decide) (by decide) (by decide) .nil
  have hbalanced : IsBalanced false "\"/*:;\"(;[,:])\\\"é".toList :=
    .string (.inl rfl) hstring (.group (.inl ⟨rfl, rfl⟩) houter hend)
  have hname : ("x-1_B" : String).toList.all isNameChar = true := by decide +kernel
  obtain ⟨htokens, -, hproperty⟩ := tokens_balanced (by decide) (List.all_eq_true.1 hname)
    (by decide) (by decide +kernel) hbalanced
  exact ⟨hbalanced, htokens, hproperty⟩

end StyleTree
