import StyleTree.Proofs.Block.Reparse
import StyleTree.Proofs.Comment.Spans
import StyleTree.Proofs.Token.Comments

/-!
# URLs without quotes

A comment can be opened within a URL. One that is closed there belongs to it like any other text.
One that is not closed takes the bracket, the semicolon and all declarations after it.
-/

namespace StyleTree

namespace Comment

/-! ### Comments that are closed -/

/-- Each comment that is opened in a text is closed in it: beside the complete comments, nothing
opens one. -/
def AllClosed (text : List Char) : Prop :=
  ∀ piece ∈ pieces text, ¬Opens piece

instance : DecidablePred AllClosed := fun text =>
  inferInstanceAs (Decidable (∀ piece ∈ pieces text, ¬Opens piece))

theorem allClosed_nil : AllClosed [] := by
  decide +kernel

theorem allClosed_cons {c : Char} {rest : List Char} (h : ¬(c = '/' ∧ rest.head? = some '*')) :
    AllClosed (c :: rest) ↔ AllClosed rest := by
  obtain ⟨piece, others, hpieces⟩ := List.exists_cons_of_ne_nil (pieces_ne_nil rest)
  have hhead : ¬(c = '/' ∧ piece.head? = some '*') := by
    rintro ⟨hc, hstar⟩
    obtain ⟨back, hback⟩ := exists_append_of_pieces_eq_cons hpieces
    exact h ⟨hc, by rw [hback, List.head?_append, hstar, Option.some_or]⟩
  rw [AllClosed, AllClosed, pieces_cons h, hpieces, List.modifyHead_cons, List.forall_mem_cons,
    List.forall_mem_cons, opens_cons, or_iff_right hhead]

theorem allClosed_comment {body inside after : List Char}
    (h : close? body = some (inside, after)) :
    AllClosed ('/' :: '*' :: body) ↔ AllClosed after := by
  rw [AllClosed, pieces_comment h, List.forall_mem_cons]
  exact and_iff_right (by decide)

theorem not_allClosed_unclosed {body : List Char} (h : close? body = none) :
    ¬AllClosed ('/' :: '*' :: body) := by
  rw [AllClosed, pieces_unclosed h, List.forall_mem_singleton, opens_cons]
  exact not_not_intro (.inl ⟨rfl, rfl⟩)

end Comment

namespace Scan

variable {scan : Scan} {depth : Nat}

/-! ### The scanner in brackets -/

/-- In brackets, a character without meaning ends no run, and the brackets stay open behind it. -/
theorem next_of_isPlain (hscan : scan.enclosure? = some ⟨depth + 1, none, false⟩) {c : Char}
    (hc : isPlain c = true) (hopened : scan.opened? c = none) :
    scan.ending? c = none ∧ (scan.next c).enclosure? = some ⟨depth + 1, none, false⟩ := by
  refine ⟨ending?_eq_none hscan (isBrace_of_isPlain hc) fun _ => rfl, ?_⟩
  rw [enclosure?_next hscan hopened, Enclosure.next_of_isPlain hc]

/-- In brackets, the scanner passes over a text that closes its comments, and the brackets are then
still open. It passes over all of a text that does not, with whatever follows up to a slash. -/
theorem passes_of_isPlain {input : List Char}
    (hscan : scan.enclosure? = some ⟨depth + 1, none, false⟩)
    (hplain : ∀ c ∈ input, isPlain c = true) (hopen : ∀ c ∈ input.head?, scan.opened? c = none) :
    (Comment.AllClosed input → scan.Passes input ∧
      (scan.after input).enclosure? = some ⟨depth + 1, none, false⟩) ∧
    (¬Comment.AllClosed input → ∀ tail, '/' ∉ tail → scan.Passes (input ++ tail)) := by
  induction input using Comment.pieces.induct generalizing scan with
  | case1 => exact ⟨fun _ => ⟨trivial, hscan⟩, fun h => absurd Comment.allClosed_nil h⟩
  | case2 body inside rest hclose ih =>
    -- The scanner passes over the comment and is then where it was before.
    obtain ⟨hfront, hpasses, hafter⟩ := passes_comment hscan rfl hclose
    have hrest : ∀ c ∈ rest, isPlain c = true :=
      fun c hc => hplain c (by rw [hfront]; exact List.mem_append_right _ hc)
    obtain ⟨hclosed, hunclosed⟩ := ih (enclosure?_text _) hrest fun _ _ => rfl
    rw [Comment.allClosed_comment hclose, hfront, passes_append, after_append, hafter]
    refine ⟨fun h => ⟨⟨hpasses, (hclosed h).1⟩, (hclosed h).2⟩, fun h tail htail => ?_⟩
    rw [List.append_assoc, passes_append, hafter]
    exact ⟨hpasses, hunclosed h tail htail⟩
  | case3 body hclose =>
    -- The comment takes all that follows, since there is no slash in it to close the comment.
    refine ⟨fun h => absurd h (Comment.not_allClosed_unclosed hclose), fun _ tail htail => ?_⟩
    obtain ⟨hcomment, hpasses⟩ :=
      passes_unclosed hscan rfl (Comment.close?_append_eq_none hclose htail)
    rw [List.cons_append, List.cons_append, hcomment]
    exact hpasses
  | case4 c rest hopening ih =>
    obtain ⟨hc, hrest⟩ := List.forall_mem_cons.1 hplain
    have hopened := hopen c rfl
    obtain ⟨hends, hnext⟩ := next_of_isPlain hscan hc hopened
    obtain ⟨hclosed, hunclosed⟩ := ih hnext hrest fun d hd => by
      rw [next_eq_nextInText hscan hopened]
      exact opened?_nextInText fun hslash _ hstar =>
        Comment.not_opening hopening ⟨hslash, hstar ▸ hd⟩
    rw [Comment.allClosed_cons (Comment.not_opening hopening)]
    exact ⟨fun h => ⟨⟨hends, (hclosed h).1⟩, (hclosed h).2⟩,
      fun h tail htail => ⟨hends, hunclosed h tail htail⟩⟩

end Scan

/-! ### Style sheets with a URL -/

/-- The start of a property whose value is a URL without quotes. -/
def urlFront (name : List Char) : List Char :=
  name ++ [':', 'u', 'r', 'l'] ++ ['(']

/-- The text of a property whose value is a URL without quotes. -/
def urlProperty (name url : List Char) : List Char :=
  urlFront name ++ url ++ [')']

/-- A style sheet with one block, in which a property with a URL comes before another property. -/
def urlSheet (name url : String) : String :=
  "a\x7b" ++ name ++ ":url(" ++ url ++ ");q:1;\x7d"

section Url

variable {name url : List Char} (hname : ∀ c ∈ name, isNameChar c = true)
  (hurl : ∀ c ∈ url, isPlain c = true)

include hname in
/-- The bracket is open behind the start of the property. -/
theorem passes_urlFront : Scan.start.Passes (urlFront name) ∧
    Scan.start.after (urlFront name) = .text ⟨1, none, false⟩ := by
  have hplain : ∀ c ∈ [':', 'u', 'r', 'l'], isPlain c = true ∧ c ≠ ';' ∧ c ≠ '/' := by
    intro c hc
    simp only [List.mem_cons, List.not_mem_nil, or_false] at hc
    rcases hc with rfl | rfl | rfl | rfl <;> decide
  have hfront : ∀ c ∈ name ++ [':', 'u', 'r', 'l'], isPlain c = true ∧ c ≠ ';' ∧ c ≠ '/' :=
    List.forall_mem_append.2 ⟨fun c hc => ⟨isPlain_of_isNameChar (hname c hc),
      ne_of_isNameChar (hname c hc) (by decide), ne_of_isNameChar (hname c hc) (by decide)⟩, hplain⟩
  have hbalanced : IsBalanced false (name ++ [':', 'u', 'r', 'l']) := .of_isPlain hfront
  obtain ⟨hpasses, hafter⟩ := hbalanced.passes (Scan.enclosure?_text {})
    (fun h => absurd h (by decide)) fun _ _ => rfl
  obtain ⟨hends, hnext⟩ := Scan.next_delimiter hafter (c := '(') (by decide)
  refine ⟨Scan.passes_append.2 ⟨hpasses, hends, trivial⟩, ?_⟩
  rw [urlFront, Scan.after_append]
  exact hnext

include hname hurl in
/-- The property ends with the semicolon behind it if the URL closes its comments. Otherwise the
style sheet ends before the property does. -/
theorem run_urlProperty :
    Scan.run .start (urlProperty name url ++ [';', 'q', ':', '1', ';', '\x7d']) =
      if Comment.AllClosed url then
        some (urlProperty name url, .semicolon, ['q', ':', '1', ';', '\x7d'])
      else none := by
  obtain ⟨hfront, hopen⟩ := passes_urlFront hname
  obtain ⟨hclosed, hunclosed⟩ := Scan.passes_of_isPlain (Scan.enclosure?_text ⟨0 + 1, none, false⟩)
    hurl fun _ _ => rfl
  split_ifs with hcomments
  · obtain ⟨hpasses, hafter⟩ := hclosed hcomments
    obtain ⟨hends, hnext⟩ := Scan.next_delimiter hafter (c := ')') (by decide)
    refine Scan.run_eq_some_iff.2 ⟨?_, ?_, rfl⟩
    · rw [urlProperty, Scan.passes_append, Scan.passes_append, Scan.after_append, hopen]
      exact ⟨⟨hfront, hpasses⟩, hends, trivial⟩
    · rw [urlProperty, Scan.after_append, Scan.after_append, hopen, Scan.after_cons, hnext]
      decide
  · have hpasses := hunclosed hcomments [')', ';', 'q', ':', '1', ';', '\x7d'] (by decide)
    rw [Scan.run_eq_none_iff, urlProperty, List.append_assoc, List.append_assoc,
      Scan.passes_append, hopen]
    exact ⟨hfront, hpasses⟩

include hname in
theorem startsRun_urlProperty (hne : name ≠ []) (rest : List Char) :
    StartsRun (urlProperty name url ++ rest) := by
  obtain ⟨c, others, rfl⟩ := List.exists_cons_of_ne_nil hne
  exact startsRun_of_isNameChar (hname c (List.mem_cons_self ..)) _

include hname in
/-- The property is trimmed, and its name and value are what is around its first colon. -/
theorem nameAndValue?_urlProperty (hne : name ≠ []) :
    Text.Trimmed (urlProperty name url) ∧
      Declaration.nameAndValue? (urlProperty name url) =
        some (name, ['u', 'r', 'l', '('] ++ url ++ [')']) := by
  have htrimmed := trimmed_of_isNameChar hname
  have hvalue : Text.Trimmed (['u', 'r', 'l', '('] ++ url ++ [')']) :=
    Text.Trimmed.append (by decide) (by decide) (by decide) (by decide) url
  have hsplit : urlProperty name url = name ++ [':'] ++ (['u', 'r', 'l', '('] ++ url ++ [')']) := by
    simp [urlProperty, urlFront]
  refine ⟨hsplit ▸ htrimmed.append hvalue hne (by simp) [':'], ?_⟩
  refine Declaration.nameAndValue?_eq_some_iff.2 ⟨name, _, ?_, ?_, ?_, ?_, htrimmed.trim_eq,
    hvalue.trim_eq⟩
  · exact Enclosure.hides_of_not_mem (fun hcolon => absurd (hname ':' hcolon) (by decide)) _
  · rw [Enclosure.after_of_isPlain fun c hc => isPlain_of_isNameChar (hname c hc)]
    decide
  · simpa using hsplit
  · rwa [htrimmed.trim_eq]

end Url

/-- The tokens of the style sheet. A comment that is not closed leaves nothing of the block but its
opening. -/
theorem tokens_urlSheet {name url : String} (hne : name ≠ "")
    (hname : ∀ c ∈ name.toList, isNameChar c = true) (hurl : ∀ c ∈ url.toList, isPlain c = true) :
    tokens (urlSheet name url) = .opening "a" ::
      if Comment.AllClosed url.toList then
        [.declaration (String.ofList (urlProperty name.toList url.toList)), .declaration "q:1",
          .closing]
      else [] := by
  have hsheet : (urlSheet name url).toList = 'a' :: '\x7b' ::
      (urlProperty name.toList url.toList ++ [';', 'q', ':', '1', ';', '\x7d']) := by
    simp [urlSheet, urlProperty, urlFront]
  have hnonempty : name.toList ≠ [] := by simp [hne]
  have hstart : StartsRun
      (urlProperty name.toList url.toList ++ [';', 'q', ':', '1', ';', '\x7d']) :=
    startsRun_urlProperty hname hnonempty _
  have hrun := run_urlProperty hname hurl
  have hopening (rest : List Char) :
      tokensOf ('a' :: '\x7b' :: rest) = .opening "a" :: tokensOf rest := by
    have hrun : Scan.run .start ('a' :: '\x7b' :: rest) = some (['a'], .opening, rest) := rfl
    have hlexes := Lexes.opening (startsRun_of_isNameChar (by decide) _) hrun
    exact tokensOf_eq_cons_iff.2 ⟨rest, hlexes.dropWhile_eq.symm ▸ hlexes, rfl⟩
  rw [tokens_eq_tokensOf, hsheet, hopening]
  congr 1
  -- Either the semicolon ends the property, or all that is left is a run without an end.
  split_ifs at hrun ⊢
  · have hlexes := Lexes.semicolon hstart hrun
    have hrest : tokensOf ['q', ':', '1', ';', '\x7d'] = [.declaration "q:1", .closing] := by
      decide +kernel
    rw [(nameAndValue?_urlProperty hname hnonempty).1.trim_eq] at hlexes
    exact tokensOf_eq_cons_iff.2 ⟨_, hlexes.dropWhile_eq.symm ▸ hlexes, hrest⟩
  · exact tokensOf_eq_nil hstart hrun

theorem Block.assembled_two (selector first second : String) :
    assembled (assembler false) ({} : Settings).maxDepth
        [.opening selector, .declaration first, .declaration second, .closing] =
      .ok (nest false selector
        (mediaLast (addDeclaration (addDeclaration {} (.ofText first)) (.ofText second)))
        {}).block.mediaLast :=
  rfl

/-- What is read of a block in which a property with a URL comes before another one. Nothing in the
URL has a meaning but a comment that is not closed in it, which leaves the block empty. -/
theorem Block.parse_urlSheet {name url : String} (hne : name ≠ "") (hother : name ≠ "q")
    (hname : ∀ c ∈ name.toList, isNameChar c = true) (hurl : ∀ c ∈ url.toList, isPlain c = true) :
    parse (urlSheet name url) = .ok
      (if Comment.AllClosed url.toList then
        ⟨[("a", ⟨[], [(name, .once ("url(" ++ url ++ ")")), ("q", .once "1")], []⟩)], [], []⟩
      else ⟨[("a", {})], [], []⟩) := by
  have hfirst : Declaration.ofText (String.ofList (urlProperty name.toList url.toList)) =
      .property name ("url(" ++ url ++ ")") := by
    rw [Declaration.ofText, String.toList_ofList,
      (nameAndValue?_urlProperty hname (by simp [hne])).2]
    simp [← String.toList_inj]
  have hsecond : Declaration.ofText "q:1" = .property "q" "1" := by decide +kernel
  have hproperties : addProperty (addProperty {} name ("url(" ++ url ++ ")")) "q" "1" =
      ⟨[], [(name, .once ("url(" ++ url ++ ")")), ("q", .once "1")], []⟩ := by
    simp [addProperty, setProperty, property?, Table.insert, Table.find?_cons, hother, hother.symm]
  have hnest (child : Block) : (nest false "a" child {}).block = ⟨[("a", child)], [], []⟩ := by
    simp [nest, nestUnderEach, nestUnder, selectors, Table.keys, Selector.freshKey]
  rw [parse_eq_assembled, tokens_urlSheet hne hname hurl]
  split_ifs
  · rw [assembled_two, hfirst, hsecond, addDeclaration, addDeclaration, hproperties, hnest]
    rfl
  · decide +kernel

/-- A URL with a closed comment, and with a semicolon, a colon, a comma and blanks. -/
theorem Block.parse_urlSheet_comment :
    parse (urlSheet "src-1" "data:a/b;c=é, /*;:*/ *//x") = .ok
      ⟨[("a", ⟨[], [("src-1", .once "url(data:a/b;c=é, /*;:*/ *//x)"), ("q", .once "1")], []⟩)],
        [], []⟩ := by
  have hname : ("src-1" : String).toList.all isNameChar = true := by decide +kernel
  have hurl : ("data:a/b;c=é, /*;:*/ *//x" : String).toList.all isPlain = true := by decide +kernel
  have hclosed : Comment.AllClosed ("data:a/b;c=é, /*;:*/ *//x" : String).toList := by
    decide +kernel
  have hparse := parse_urlSheet (by decide) (by decide) (List.all_eq_true.1 hname)
    (List.all_eq_true.1 hurl)
  rw [if_pos hclosed] at hparse
  exact hparse

/-- A data URL whose type is any type. The asterisk behind the slash opens a comment, and nothing is
left of its property and of the one after it. -/
theorem Block.parse_anyType :
    (∀ c ∈ "data:*/*;base64,AA==".toList, isPlain c = true) ∧
      parse (urlSheet "b" "data:*/*;base64,AA==") = .ok ⟨[("a", {})], [], []⟩ ∧
      urlSheet "b" "data:*/*;base64,AA==" = "a\x7bb:url(data:*/*;base64,AA==);q:1;\x7d" := by
  have hplain : ("data:*/*;base64,AA==" : String).toList.all isPlain = true := by decide +kernel
  exact ⟨List.all_eq_true.1 hplain, by decide +kernel, by decide⟩

end StyleTree
