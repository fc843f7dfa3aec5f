import StyleTree.Assembler
import StyleTree.Proofs.Comment
import StyleTree.Proofs.Token.Scan
import StyleTree.Proofs.Token.Walk

/-!
# Separators inside and outside of comments

The scanner of a run passes over comments, while a selector or declaration is divided as if comments
were text like any other.
-/

namespace StyleTree

/-! ### Offsets -/

/-- The offsets, in bytes, of those characters of a text that count in the state in which they are
read. -/
def offsetsWhere {σ : Type} (next : σ → Char → σ) (counts : σ → Char → Bool) :
    Nat → σ → List Char → List Nat
  | _, _, [] => []
  | start, state, c :: rest =>
    (if counts state c then [start] else []) ++
      offsetsWhere next counts (start + c.utf8Size) (next state c) rest

theorem offsetsWhere_append {σ : Type} (next : σ → Char → σ) (counts : σ → Char → Bool)
    (start : Nat) (state : σ) (text more : List Char) :
    offsetsWhere next counts start state (text ++ more) =
      offsetsWhere next counts start state text ++
        offsetsWhere next counts (start + Text.byteLength text) (text.foldl next state) more := by
  induction text generalizing start state with
  | nil => rfl
  | cons c rest ih =>
    rw [List.cons_append, offsetsWhere, offsetsWhere, ih, List.append_assoc, List.foldl_cons,
      Text.byteLength_cons, Nat.add_assoc]

theorem offsetsWhere_eq_nil {σ : Type} {next : σ → Char → σ} {counts : σ → Char → Bool}
    {text : List Char} (h : ∀ state, ∀ c ∈ text, counts state c = false) (start : Nat) (state : σ) :
    offsetsWhere next counts start state text = [] := by
  induction text generalizing start state with
  | nil => rfl
  | cons c rest ih =>
    rw [offsetsWhere, h state c (List.mem_cons_self ..),
      ih fun state d hd => h state d (List.mem_cons_of_mem c hd)]
    rfl

namespace Enclosure

variable {separator : Char} {enclosure : Enclosure}

/-- The offsets of the exposed occurrences of a separator in a text. -/
def offsets (separator : Char) : Nat → Enclosure → List Char → List Nat :=
  offsetsWhere next fun enclosure c => c == separator && enclosure.exposes c

theorem offsets_cons (start : Nat) (c : Char) (rest : List Char) :
    enclosure.offsets separator start (c :: rest) =
      (if c == separator && enclosure.exposes c then [start] else []) ++
        (enclosure.next c).offsets separator (start + c.utf8Size) rest :=
  rfl

theorem offsets_append (start : Nat) (text more : List Char) :
    enclosure.offsets separator start (text ++ more) =
      enclosure.offsets separator start text ++
        (enclosure.after text).offsets separator (start + Text.byteLength text) more :=
  offsetsWhere_append ..

theorem offsets_eq_nil {text : List Char} (h : enclosure.Hides separator text) (start : Nat) :
    enclosure.offsets separator start text = [] := by
  induction text generalizing enclosure start with
  | nil => rfl
  | cons c rest ih =>
    rw [offsets_cons, ih h.2, if_neg (by simpa using h.1), List.nil_append]

/-- A text is cut at the first of the offsets. -/
theorem head?_offsets (start : Nat) (text : List Char) :
    (enclosure.offsets separator start text).head? =
      (cut? separator enclosure text).map fun pair => start + Text.byteLength pair.1 := by
  induction text generalizing enclosure start with
  | nil => rfl
  | cons c rest ih =>
    rw [offsets_cons, cut?]
    by_cases hc : c = separator ∧ enclosure.exposes c = true
    · obtain ⟨rfl, hexposes⟩ := hc
      simp [hexposes]
    · rw [if_neg hc, if_neg (by simpa using hc), List.nil_append, ih, Option.map_map]
      congr 1
      funext pair
      simp [Nat.add_assoc]

/-- The offsets at which texts end, all but the last of them, if they stand one after the other with
a separator between them. -/
def ends (separator : Char) : Nat → List (List Char) → List Nat
  | start, piece :: other :: rest =>
    (start + Text.byteLength piece) ::
      ends separator (start + Text.byteLength piece + separator.utf8Size) (other :: rest)
  | _, [_] => []
  | _, [] => []

/-- A text is divided at each of the offsets. -/
theorem offsets_eq_ends_segments (start : Nat) (text : List Char) :
    enclosure.offsets separator start text =
      ends separator start (segments separator enclosure text) := by
  induction text generalizing enclosure start with
  | nil => rfl
  | cons c rest ih =>
    obtain ⟨piece, others, hsegments⟩ :=
      List.exists_cons_of_ne_nil (segments_ne_nil separator (enclosure.next c) rest)
    rw [offsets_cons, segments, ih, hsegments]
    by_cases hc : c = separator ∧ enclosure.exposes c = true
    · obtain ⟨rfl, hexposes⟩ := hc
      simp [hexposes, ends]
    · rw [if_neg hc, if_neg (by simpa using hc), List.nil_append, List.modifyHead_cons]
      cases others <;> simp [ends, Nat.add_assoc]

/-- A comment that makes no difference: the enclosure is the same before and after it, and it
exposes no separator. -/
def Ignores (separator : Char) (enclosure : Enclosure) (comment : List Char) : Prop :=
  enclosure.after comment = enclosure ∧ enclosure.Hides separator comment

instance decidableHides (separator : Char) :
    ∀ (enclosure : Enclosure) (text : List Char), Decidable (enclosure.Hides separator text)
  | _, [] => .isTrue trivial
  | enclosure, c :: rest =>
    have := decidableHides separator (enclosure.next c) rest
    inferInstanceAs (Decidable (¬(c = separator ∧ enclosure.exposes c = true) ∧
      (enclosure.next c).Hides separator rest))

instance (separator : Char) (enclosure : Enclosure) (comment : List Char) :
    Decidable (enclosure.Ignores separator comment) :=
  inferInstanceAs (Decidable (_ ∧ _))

end Enclosure

namespace Scan

variable {scan : Scan} {separator : Char}

/-- The offsets of a separator where the scanner is outside of comments and sees it exposed. -/
def offsets (separator : Char) : Nat → Scan → List Char → List Nat :=
  offsetsWhere next fun scan c => c == separator && scan.enclosure?.any (·.exposes c)

theorem offsets_cons (start : Nat) (c : Char) (rest : List Char) :
    scan.offsets separator start (c :: rest) =
      (if c == separator && scan.enclosure?.any (·.exposes c) then [start] else []) ++
        (scan.next c).offsets separator (start + c.utf8Size) rest :=
  rfl

theorem offsets_append (start : Nat) (text more : List Char) :
    scan.offsets separator start (text ++ more) =
      scan.offsets separator start text ++
        (scan.after text).offsets separator (start + Text.byteLength text) more :=
  offsetsWhere_append ..

/-- The text of a comment up to its end, from what follows its opening. A comment without an end
takes all of that. -/
def commentOf (body : List Char) : List Char :=
  match Comment.close? body with
  | some (inside, _) => '/' :: '*' :: (inside ++ ['*', '/'])
  | none => '/' :: '*' :: body

theorem commentOf_prefix (body : List Char) : commentOf body <+: '/' :: '*' :: body := by
  rw [commentOf]
  split
  · rename_i inside rest hclose
    exact ⟨rest, by simp [Comment.eq_append_of_close? hclose]⟩
  · exact List.prefix_refl _

/-- The comments that the scanner passes over in a text, each with the enclosure before it. -/
def comments : Scan → List Char → List (Enclosure × List Char)
  | _, [] => []
  | scan, c :: rest =>
    ((scan.opened? c).map fun enclosure => (enclosure, commentOf rest)).toList ++
      comments (scan.next c) rest

/-! ### Inside of comments -/

/-- The scanner is in a comment at each character of a text. -/
def Covers : Scan → List Char → Prop
  | _, [] => True
  | scan, c :: rest => scan.enclosure? = none ∧ (scan.next c).Covers rest

/-- Nothing ends a run in a comment. -/
theorem Covers.passes {text : List Char} (h : scan.Covers text) : scan.Passes text := by
  induction text generalizing scan with
  | nil => trivial
  | cons c rest ih => exact ⟨by rw [ending?, h.1], ih h.2⟩

theorem Covers.offsets_eq_nil {text : List Char} (h : scan.Covers text) (start : Nat) :
    scan.offsets separator start text = [] := by
  induction text generalizing scan start with
  | nil => rfl
  | cons c rest ih => simp [offsets_cons, h.1, ih h.2]

theorem Covers.comments_append {text : List Char} (h : scan.Covers text) (more : List Char) :
    scan.comments (text ++ more) = (scan.after text).comments more := by
  induction text generalizing scan with
  | nil => rfl
  | cons c rest ih =>
    rw [List.cons_append, comments, opened?_eq_none h.1, ih h.2]
    rfl

/-- What a character in a comment is matters for nothing but a slash that follows. -/
theorem next_next_comment (enclosure : Enclosure) {c d : Char} (h : ¬(c = '*' ∧ d = '/')) :
    ((comment enclosure).next c).next d = (comment enclosure).next d := by
  by_cases hstar : c = '*'
  · have hslash : d ≠ '/' := fun hd => h ⟨hstar, hd⟩
    simp [next, hstar, hslash]
  · simp [next, hstar]

theorem enclosure?_next_comment (enclosure : Enclosure) (c : Char) :
    ((comment enclosure).next c).enclosure? = none := by
  rw [next]
  split_ifs <;> rfl

/-- A comment covers all up to its end, and the scanner is then where it was before the comment. -/
theorem covers_of_close? {body inside rest : List Char}
    (h : Comment.close? body = some (inside, rest)) (enclosure : Enclosure) :
    (comment enclosure).Covers (inside ++ ['*', '/']) ∧
      (comment enclosure).after (inside ++ ['*', '/']) = .text enclosure := by
  fun_induction Comment.close? body generalizing inside with
  | case1 => simp at h
  | case2 =>
    obtain ⟨rfl, -⟩ : [] = inside ∧ _ := by simpa using h
    simp [Covers, after, next, enclosure?]
  | case3 c others hopen ih =>
    obtain ⟨⟨front, back⟩, hclose, heq⟩ := Option.map_eq_some_iff.1 h
    obtain ⟨rfl, rfl⟩ := Prod.mk.inj heq
    obtain ⟨hcovers, hafter⟩ := ih hclose
    -- The character before the rest of the comment does not close it.
    obtain ⟨d, tail, htail⟩ : ∃ d tail, front ++ ['*', '/'] = d :: tail := by
      cases front <;> exact ⟨_, _, rfl⟩
    have hd : ¬(c = '*' ∧ d = '/') := by
      rintro ⟨rfl, rfl⟩
      refine hopen (tail ++ back) rfl ?_
      rw [Comment.eq_append_of_close? hclose, ← List.cons_append, ← htail]
      simp
    have hnext := next_next_comment enclosure hd
    rw [htail] at hcovers hafter
    rw [List.cons_append, htail]
    refine ⟨⟨rfl, enclosure?_next_comment enclosure c, ?_⟩, ?_⟩
    · rw [hnext]
      exact hcovers.2
    · rw [after_cons, after_cons, hnext]
      exact hafter

/-- A comment without an end covers all that follows. -/
theorem covers_of_close?_eq_none {body : List Char} (h : Comment.close? body = none)
    (enclosure : Enclosure) : (comment enclosure).Covers body := by
  fun_induction Comment.close? body with
  | case1 => trivial
  | case2 => simp at h
  | case3 c others hopen ih =>
    have hcovers := ih (Option.map_eq_none_iff.1 h)
    refine ⟨rfl, ?_⟩
    cases others with
    | nil => trivial
    | cons d tail =>
      have hd : ¬(c = '*' ∧ d = '/') := by
        rintro ⟨rfl, rfl⟩
        exact hopen tail rfl rfl
      refine ⟨enclosure?_next_comment enclosure c, ?_⟩
      rw [next_next_comment enclosure hd]
      exact hcovers.2

theorem offsets_asterisk (hstar : separator ≠ '*') (start : Nat) (enclosure : Enclosure)
    (body : List Char) :
    (slash enclosure).offsets separator start ('*' :: body) =
      (comment enclosure).offsets separator (start + '*'.utf8Size) body := by
  rw [offsets_cons, if_neg (by simp [Ne.symm hstar])]
  rfl

/-- Behind a comment, the scanner goes on as it would have in its place. -/
theorem comments_asterisk {body inside rest : List Char}
    (h : Comment.close? body = some (inside, rest)) (enclosure : Enclosure) :
    (slash enclosure).comments ('*' :: body) =
      (enclosure, '/' :: '*' :: (inside ++ ['*', '/'])) :: (text enclosure).comments rest := by
  obtain ⟨hcovers, hafter⟩ := covers_of_close? h enclosure
  have hopen : (slash enclosure).comments ('*' :: body) =
      (enclosure, commentOf body) :: (comment enclosure).comments body := rfl
  have hbody : body = inside ++ ['*', '/'] ++ rest := by
    simpa using Comment.eq_append_of_close? h
  rw [hopen, commentOf, h, ← hafter, ← hcovers.comments_append, ← hbody]

/-! ### Agreement -/

/-- The scanner sees the separators at which the text is divided if all comments that it passes over
make no difference. -/
theorem offsets_eq (hstar : separator ≠ '*') (input : List Char) {scan : Scan}
    {enclosure : Enclosure} (henclosure : scan.enclosure? = some enclosure)
    (h : ∀ found ∈ scan.comments input, found.1.Ignores separator found.2) (start : Nat) :
    scan.offsets separator start input = enclosure.offsets separator start input := by
  match input with
  | [] => rfl
  | c :: rest =>
    cases hopened : scan.opened? c with
    | none =>
      rw [comments, hopened] at h
      rw [offsets_cons, Enclosure.offsets_cons, henclosure, Option.any_some,
        offsets_eq hstar rest (enclosure?_next henclosure hopened) h]
    | some before =>
      obtain ⟨rfl, rfl⟩ := opened?_eq_some hopened
      obtain rfl := Option.some.inj henclosure
      rw [offsets_asterisk hstar]
      cases hclose : Comment.close? rest with
      | none =>
        have hignores := h (before, commentOf rest) (List.mem_cons_self ..)
        rw [commentOf, hclose] at hignores
        rw [(covers_of_close?_eq_none hclose before).offsets_eq_nil,
          Enclosure.offsets_eq_nil hignores.2.2]
      | some pair =>
        obtain ⟨inside, after⟩ := pair
        obtain ⟨hcovers, hscan⟩ := covers_of_close? hclose before
        rw [comments_asterisk hclose, List.forall_mem_cons] at h
        obtain ⟨⟨hafter, hhides⟩, hlater⟩ := h
        have hlength := Comment.length_lt_of_close? hclose
        have hrest : rest = inside ++ ['*', '/'] ++ after := by
          simpa using Comment.eq_append_of_close? hclose
        -- Behind the comment, both are where they were before it.
        rw [Enclosure.after_cons] at hafter
        rw [hrest, offsets_append, hcovers.offsets_eq_nil, hscan, ← List.cons_append,
          Enclosure.offsets_append, Enclosure.offsets_eq_nil hhides.2, hafter,
          offsets_eq hstar after rfl hlater, Text.byteLength_cons, Nat.add_assoc]
termination_by input.length

theorem offsets_append_blanks (hseparator : Text.isBlank separator = false) (start : Nat)
    (text : List Char) {blanks : List Char} (hblanks : ∀ c ∈ blanks, Text.isBlank c = true) :
    scan.offsets separator start (text ++ blanks) = scan.offsets separator start text := by
  rw [offsets_append]
  refine (congrArg _ (offsetsWhere_eq_nil (fun state c hc => ?_) _ _)).trans (List.append_nil _)
  have hne : c ≠ separator := by
    rintro rfl
    exact absurd ((hblanks c hc).symm.trans hseparator) (by decide)
  simp [hne]

end Scan

theorem Lexes.exists_run {input rest : List Char} {token : Token} (h : Lexes input token rest)
    {text : String} (htoken : token = .opening text ∨ token = .declaration text) :
    ∃ run ending left, StartsRun input ∧ Scan.run .start input = some (run, ending, left) ∧
      text.toList = Text.trim run := by
  cases h with
  | closing => simp at htoken
  | comment => simp at htoken
  | unclosed => simp at htoken
  | opening hstart hrun =>
    obtain rfl : _ = text := by simpa using htoken
    exact ⟨_, _, _, hstart, hrun, String.toList_ofList⟩
  | semicolon hstart hrun =>
    obtain rfl : _ = text := by simpa using htoken
    exact ⟨_, _, _, hstart, hrun, String.toList_ofList⟩
  | brace hstart hrun =>
    obtain rfl : _ = text := by simpa using htoken
    exact ⟨_, _, _, hstart, hrun, String.toList_ofList⟩

/-- The text of a token is divided at the separators that the scanner saw when it read the token,
if all comments that it passed over make no difference. -/
theorem offsets_eq_of_tokens {css text : String} {n : Nat} {separator : Char}
    (htoken : (tokens css)[n]? = some (.opening text) ∨
      (tokens css)[n]? = some (.declaration text))
    (hseparator : separator = ':' ∨ separator = ',')
    (hcomments : ∀ found ∈ Scan.start.comments text.toList, found.1.Ignores separator found.2) :
    ∃ run ending rest,
      Scan.run .start (((Cursor.start css).skip n).rest.dropWhile isFiller) =
        some (run, ending, rest) ∧
      text.toList = Text.trim run ∧
      Enclosure.offsets separator 0 {} text.toList = Scan.start.offsets separator 0 run ∧
      (Enclosure.cut? separator {} text.toList).map (fun pair => Text.byteLength pair.1) =
        (Scan.start.offsets separator 0 run).head? ∧
      Enclosure.ends separator 0 (Enclosure.segments separator {} text.toList) =
        Scan.start.offsets separator 0 run := by
  have hplain : Text.isBlank separator = false ∧ separator ≠ '*' := by
    rcases hseparator with rfl | rfl <;> decide
  obtain ⟨token, hnth, htoken⟩ : ∃ token, (tokens css)[n]? = some token ∧
      (token = .opening text ∨ token = .declaration text) := by
    rcases htoken with h | h
    · exact ⟨_, h, .inl rfl⟩
    · exact ⟨_, h, .inr rfl⟩
  rw [tokens, Lexing.ofText, Cursor.getElem?_map_token_lex] at hnth
  obtain ⟨run, ending, rest, hstart, hrun, htext⟩ := (Cursor.lexes_of_next hnth).exists_run htoken
  -- What was trimmed from the run holds no separator.
  obtain ⟨blanks, hblanks, hsplit⟩ := Text.exists_trim_append (hstart.isBlank_head hrun)
  have hscanned : Scan.start.offsets separator 0 run =
      Scan.start.offsets separator 0 text.toList := by
    rw [hsplit, ← htext, Scan.offsets_append_blanks hplain.1 0 _ hblanks]
  have hoffsets : Enclosure.offsets separator 0 {} text.toList =
      Scan.start.offsets separator 0 run := by
    rw [hscanned, Scan.offsets_eq hplain.2 text.toList rfl hcomments]
  refine ⟨run, ending, rest, hrun, htext, hoffsets, ?_, ?_⟩
  · rw [← hoffsets, Enclosure.head?_offsets]
    simp
  · rw [← hoffsets, Enclosure.offsets_eq_ends_segments]

/-- A list of two selectors, with a string in a comment in brackets and brackets in a comment. -/
theorem offsets_eq_of_tokens_brackets :
    (tokens "b\x7b\x7d; a[b/* \"),:\" */=\"x,y\"]/* (c,d) */ , e \x7b")[2]? =
        some (.opening "a[b/* \"),:\" */=\"x,y\"]/* (c,d) */ , e") ∧
      (Scan.start.comments "a[b/* \"),:\" */=\"x,y\"]/* (c,d) */ , e".toList).length = 2 ∧
      Enclosure.offsets ',' 0 {} "a[b/* \"),:\" */=\"x,y\"]/* (c,d) */ , e".toList = [33] ∧
      ∃ run, Scan.start.offsets ',' 0 run = [33] ∧
        Text.trim run = "a[b/* \"),:\" */=\"x,y\"]/* (c,d) */ , e".toList := by
  have htoken : (tokens "b\x7b\x7d; a[b/* \"),:\" */=\"x,y\"]/* (c,d) */ , e \x7b")[2]? =
      some (.opening "a[b/* \"),:\" */=\"x,y\"]/* (c,d) */ , e") := by decide +kernel
  have hcomments : (Scan.start.comments
      "a[b/* \"),:\" */=\"x,y\"]/* (c,d) */ , e".toList).length = 2 := by decide +kernel
  have hoffsets : Enclosure.offsets ',' 0 {} "a[b/* \"),:\" */=\"x,y\"]/* (c,d) */ , e".toList =
      [33] := by decide +kernel
  obtain ⟨run, _, _, -, htext, heq, -⟩ :=
    offsets_eq_of_tokens (.inl htoken) (.inr rfl) (by decide +kernel)
  exact ⟨htoken, hcomments, hoffsets, run, heq.symm.trans hoffsets, htext.symm⟩

/-- A declaration with a colon in a comment. The scanner passes over that colon, and the declaration
is divided at it. -/
theorem offsets_ne_of_comment :
    tokens "color/* note: x */: red;" = [.declaration "color/* note: x */: red"] ∧
      Enclosure.offsets ':' 0 {} "color/* note: x */: red".toList = [12, 18] ∧
      Scan.start.offsets ':' 0 "color/* note: x */: red".toList = [18] ∧
      Declaration.ofText "color/* note: x */: red" =
        .property "color/* note" "x */: red" := by
  decide +kernel

end StyleTree
