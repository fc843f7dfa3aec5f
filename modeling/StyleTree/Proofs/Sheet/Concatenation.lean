import StyleTree.Proofs.Assembly.Depth
import StyleTree.Proofs.Sheet.Agreement
import StyleTree.Proofs.Token.Reads

/-!
# Style sheets one after the other

A style sheet that leaves no run and no comment open can be followed by any other text: no token
reaches over the end.
-/

namespace StyleTree

/-- A style sheet that ends with a token or filler, and not within a comment. -/
structure IsComplete (css : String) : Prop where
  unfinished_eq_nil : unfinished css.toList = []
  isFinished : ∀ token ∈ tokens css, token.IsFinished

theorem IsComplete.tokens_append {css : String} (h : IsComplete css) (more : String) :
    tokens (css ++ more) = tokens css ++ tokens more := by
  have hreads := reads_tokensOf css.toList
  rw [h.unfinished_eq_nil] at hreads
  have hboth := hreads.append h.isFinished (reads_tokensOf more.toList)
  rw [tokens_eq_tokensOf, String.toList_append]
  exact hboth.eq.1

namespace Assembly

/-- One assembly is as another, but with some items in front of all others in the outermost block.
How many blocks were renamed does not matter. -/
inductive Extends (front : Listing) : Assembly Listing → Assembly Listing → Prop where
  | outermost (current : Listing) (renamings others : Nat) :
    Extends front ⟨front ++ current, [], renamings⟩ ⟨current, [], others⟩
  | nested (current : Listing) (name : String) {outer body : Listing}
    {rest levels : List (String × Listing)} {renamings others : Nat}
    (h : Extends front ⟨outer, rest, renamings⟩ ⟨body, levels, others⟩) :
    Extends front ⟨current, (name, outer) :: rest, renamings⟩
      ⟨current, (name, body) :: levels, others⟩

variable {front current body : Listing} {enclosing levels : List (String × Listing)}
  {renamings others : Nat}

theorem Extends.depth_eq {whole part : Assembly Listing} (h : Extends front whole part) :
    whole.depth = part.depth := by
  induction h with
  | outermost => rfl
  | nested _ _ _ ih => exact congrArg Nat.succ ih

/-- Items that are added to the innermost block go to its end. -/
theorem Extends.concat (h : Extends front ⟨current, enclosing, renamings⟩ ⟨body, levels, others⟩)
    (items : Listing) :
    Extends front ⟨current ++ items, enclosing, renamings⟩ ⟨body ++ items, levels, others⟩ := by
  cases h with
  | outermost =>
    rw [List.append_assoc]
    exact .outermost _ _ _
  | nested _ _ h => exact .nested _ _ h

variable {keepComments : Bool} {limit : UInt64}

/-- One token leaves the items where they are, or is beyond the limit with and without them. -/
theorem Extends.take {whole part : Assembly Listing} (h : Extends front whole part)
    (token : Token) :
    Agree limit (Extends front) (Assembly.take (Listing.assembler keepComments) limit whole token)
      (Assembly.take (Listing.assembler keepComments) limit part token) := by
  cases token with
  | comment text =>
    rw [take_comment, take_comment]
    apply Agree.ok
    cases keepComments with
    | false => exact h
    | true => exact h.concat [.comment text]
  | declaration text =>
    rw [take_declaration, take_declaration]
    exact .ok (h.concat [.ofDeclaration (Declaration.ofText text)])
  | opening selector =>
    by_cases hlimit : part.depth + 1 ≤ limit.toNat
    · rw [take_opening hlimit, take_opening (by rwa [h.depth_eq])]
      exact .ok (.nested _ _ h)
    · have hlt := Nat.lt_of_not_le hlimit
      rw [take_opening_of_lt hlt, take_opening_of_lt (by rwa [h.depth_eq])]
      exact .tooDeep
  | closing =>
    cases h with
    | outermost =>
      rw [take_closing_nil rfl, take_closing_nil rfl]
      exact .ok (.outermost _ _ _)
    | nested current name h =>
      rw [take_closing_cons rfl, take_closing_cons rfl]
      exact .ok (h.concat [.rule name current])

theorem Extends.foldlM {whole part : Assembly Listing} (h : Extends front whole part)
    (tokens : List Token) :
    Agree limit (Extends front)
      (tokens.foldlM (Assembly.take (Listing.assembler keepComments) limit) whole)
      (tokens.foldlM (Assembly.take (Listing.assembler keepComments) limit) part) := by
  refine Agree.foldlM ?_ h
  intro token _ whole part h
  exact h.take token

/-- In the end the items are in front of all others. -/
theorem Extends.collapse
    (h : Extends front ⟨current, enclosing, renamings⟩ ⟨body, levels, others⟩) :
    Assembly.collapse (Listing.assembler keepComments) current enclosing =
      front ++ Assembly.collapse (Listing.assembler keepComments) body levels := by
  induction levels generalizing current enclosing body with
  | nil =>
    cases h with
    | outermost => rfl
  | cons level rest ih =>
    cases h with
    | nested current name h =>
      rw [Assembly.collapse, Assembly.collapse]
      exact ih (h.concat [.rule name current])

end Assembly

variable {keepComments : Bool} {limit : UInt64}

/-- Tokens that are taken in after some items make what they make alone, after the items. -/
theorem Assembly.Extends.assembled_eq {front : Listing} {whole : Assembly Listing}
    (h : Extends front whole { current := (Listing.assembler keepComments).empty })
    (tokens : List Token) :
    (tokens.foldlM (Assembly.take (Listing.assembler keepComments) limit) whole).map
        (fun assembly => Assembly.collapse (Listing.assembler keepComments) assembly.current
          assembly.enclosing) =
      (assembled (Listing.assembler keepComments) limit tokens).map fun items =>
        front ++ items := by
  have hagree : Agree limit (Extends front)
      (tokens.foldlM (Assembly.take (Listing.assembler keepComments) limit) whole)
      (tokens.foldlM (Assembly.take (Listing.assembler keepComments) limit)
        { current := (Listing.assembler keepComments).empty }) := h.foldlM tokens
  rw [assembled]
  generalize tokens.foldlM (Assembly.take (Listing.assembler keepComments) limit) whole = left
    at hagree ⊢
  generalize tokens.foldlM (Assembly.take (Listing.assembler keepComments) limit)
    { current := (Listing.assembler keepComments).empty } = right at hagree ⊢
  cases hagree with
  | tooDeep => rfl
  | ok hextends => exact congrArg Except.ok hextends.collapse

/-- Where no block is left open by the first of the tokens, the items of the others come after
theirs. -/
theorem assembled_append {first others : List Token} (hdepth : runningDepth 0 first = 0) :
    assembled (Listing.assembler keepComments) limit (first ++ others) =
      (assembled (Listing.assembler keepComments) limit first).bind fun front =>
        (assembled (Listing.assembler keepComments) limit others).map fun items =>
          front ++ items := by
  rw [assembled, assembled, List.foldlM_append]
  cases hfirst : first.foldlM (Assembly.take (Listing.assembler keepComments) limit)
      { current := (Listing.assembler keepComments).empty } with
  | error error => rfl
  | ok assembly =>
    obtain ⟨front, enclosing, renamings⟩ := assembly
    obtain rfl : enclosing = [] := by
      apply List.eq_nil_of_length_eq_zero
      exact (Assembly.depth_foldlM hfirst).trans hdepth
    have hstart : Assembly.Extends front ⟨front ++ [], [], renamings⟩ ⟨[], [], 0⟩ :=
      .outermost [] renamings 0
    rw [List.append_nil] at hstart
    exact hstart.assembled_eq others

namespace Sheet

/-- If a style sheet leaves no run and no comment open, the tokens of another style sheet after it
are read as they are alone. If it leaves no block open either, the listing of both is that of the
first and then that of the second, and there is one if there are both. -/
theorem parse_append {first : String} (hcomplete : IsComplete first) (second : String) :
    tokens (first ++ second) = tokens first ++ tokens second ∧
      (runningDepth 0 (tokens first) = 0 → ∀ settings : Settings, settings.ordered = true →
        settings.stripComments = false →
          ((∃ sheet, parse settings (first ++ second) = .ok sheet) ↔
            (∃ sheet, parse settings first = .ok sheet) ∧
              ∃ sheet, parse settings second = .ok sheet) ∧
          ∀ sheet, parse settings (first ++ second) = .ok sheet →
            ∃ front back, parse settings first = .ok (.listed front) ∧
              parse settings second = .ok (.listed back) ∧ sheet = .listed (front ++ back)) := by
  have htokens := hcomplete.tokens_append second
  refine ⟨htokens, ?_⟩
  intro hdepth settings hordered hstrip
  have hparse : ∀ css, parse settings css =
      (assembled (Listing.assembler settings.keepsComments) settings.maxDepth (tokens css)).map
        .listed := by
    intro css
    rw [parse_ordered hordered, Settings.source_eq_self hstrip]
  rw [hparse, hparse, hparse, htokens, assembled_append hdepth]
  generalize assembled (Listing.assembler settings.keepsComments) settings.maxDepth
    (tokens first) = left
  generalize assembled (Listing.assembler settings.keepsComments) settings.maxDepth
    (tokens second) = right
  cases left with
  | error error => simp [Except.bind, Except.map]
  | ok front =>
    cases right with
    | error error => simp [Except.bind, Except.map]
    | ok back => simp [Except.bind, Except.map, eq_comm]

/-- A quote without an end, a comment that ends at the end, and after that a style sheet that starts
with a slash and ends within a block and a comment. -/
theorem parse_append_marks :
    IsComplete "a \x7b x: '\x7d /* \x7b */" ∧
      runningDepth 0 (tokens "a \x7b x: '\x7d /* \x7b */") = 0 ∧
      tokens ("a \x7b x: '\x7d /* \x7b */" ++ "/\x7d b \x7b é: c; /* d") =
        tokens "a \x7b x: '\x7d /* \x7b */" ++ tokens "/\x7d b \x7b é: c; /* d" ∧
      parse { ordered := true, comments := true }
          ("a \x7b x: '\x7d /* \x7b */" ++ "/\x7d b \x7b é: c; /* d") =
        .ok (.listed ([.rule "a" [.property "x" "'"], .comment "/* \x7b */"] ++
          [.statement "/;", .rule "b" [.property "é" "c", .comment "/* d"]])) := by
  have htokens : tokens "a \x7b x: '\x7d /* \x7b */" =
      [.opening "a", .declaration "x: '", .closing, .comment "/* \x7b */"] := by decide +kernel
  have hcomplete : IsComplete "a \x7b x: '\x7d /* \x7b */" := by
    refine ⟨by decide +kernel, ?_⟩
    have hcomment : (Token.comment "/* \x7b */").IsFinished := ⟨[' ', '\x7b', ' '], by decide⟩
    simpa [htokens, Token.IsFinished] using hcomment
  have hdepth : runningDepth 0 (tokens "a \x7b x: '\x7d /* \x7b */") = 0 := by decide +kernel
  obtain ⟨hboth, hsettings⟩ := parse_append hcomplete "/\x7d b \x7b é: c; /* d"
  obtain ⟨hsucceeds, hitems⟩ := hsettings hdepth { ordered := true, comments := true } rfl rfl
  have hfirst : parse { ordered := true, comments := true } "a \x7b x: '\x7d /* \x7b */" =
      .ok (.listed [.rule "a" [.property "x" "'"], .comment "/* \x7b */"]) := by decide +kernel
  have hsecond : parse { ordered := true, comments := true } "/\x7d b \x7b é: c; /* d" =
      .ok (.listed [.statement "/;", .rule "b" [.property "é" "c", .comment "/* d"]]) := by
    decide +kernel
  obtain ⟨sheet, hsheet⟩ := hsucceeds.2 ⟨⟨_, hfirst⟩, ⟨_, hsecond⟩⟩
  obtain ⟨front, back, hfront, hback, rfl⟩ := hitems sheet hsheet
  rw [hfirst] at hfront
  rw [hsecond] at hback
  rw [Sheet.listed.inj (Except.ok.inj hfront), Sheet.listed.inj (Except.ok.inj hback)]
  exact ⟨hcomplete, hdepth, hboth, hsheet⟩

end Sheet

end StyleTree
