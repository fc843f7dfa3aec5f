import StyleTree.Proofs.Assembly.Outcome
import StyleTree.Proofs.Listing.Fold
import StyleTree.Proofs.Token.Fragment

/-!
# Agreement of the two ways of reading

Both take in the same tokens, so that the open blocks match at every point: each of the keyed ones
is what has been gathered from the listing at its place.
-/

namespace StyleTree

/-- Two results agree if both go beyond the limit of nesting or both succeed, with related
values. -/
inductive Agree {α β : Type} (limit : UInt64) (R : α → β → Prop) :
    Except Error α → Except Error β → Prop where
  | tooDeep : Agree limit R (.error (.tooDeep limit)) (.error (.tooDeep limit))
  | ok {left : α} {right : β} (h : R left right) : Agree limit R (.ok left) (.ok right)

/-- Runs agree if their steps do. -/
theorem Agree.foldlM {α β : Type} {limit : UInt64} {R : α → β → Prop}
    {stepLeft : α → Token → Except Error α} {stepRight : β → Token → Except Error β}
    {tokens : List Token}
    (hstep : ∀ token ∈ tokens, ∀ left right, R left right →
      Agree limit R (stepLeft left token) (stepRight right token))
    {left : α} {right : β} (h : R left right) :
    Agree limit R (tokens.foldlM stepLeft left) (tokens.foldlM stepRight right) := by
  induction tokens generalizing left right with
  | nil => exact .ok h
  | cons token rest ih =>
    obtain ⟨hfirst, hrest⟩ := List.forall_mem_cons.1 hstep
    have hagree := hfirst left right h
    rw [List.foldlM_cons, List.foldlM_cons]
    generalize stepLeft left token = next at hagree ⊢
    generalize stepRight right token = other at hagree ⊢
    cases hagree with
    | tooDeep => exact .tooDeep
    | ok hnext => exact ih hrest hnext

theorem Agree.map {α β γ δ : Type} {limit : UInt64} {R : α → β → Prop} {S : γ → δ → Prop}
    {left : Except Error α} {right : Except Error β} (h : Agree limit R left right) {f : α → γ}
    {g : β → δ} (hmap : ∀ a b, R a b → S (f a) (g b)) :
    Agree limit S (left.map f) (right.map g) := by
  cases h with
  | tooDeep => exact .tooDeep
  | ok h => exact .ok (hmap _ _ h)

namespace Assembly

/-- The open keyed blocks are those that the open listings have led to so far, under the same
selectors. -/
structure Gathers (split : Bool) (listed : Assembly Listing) (keyed : Assembly Block) : Prop where
  current : keyed.current = Listing.gather split listed.current
  enclosing : keyed.enclosing =
    listed.enclosing.map fun level => (level.1, Listing.gather split level.2)
  wellNamed : Listing.WellNamed split listed.current
  levels : ∀ level ∈ listed.enclosing,
    Text.Trimmed level.1.toList ∧ Listing.WellNamed split level.2

variable {split keepComments : Bool} {limit : UInt64}

/-- The empty blocks at the start match. -/
theorem gathers_empty : Gathers split { current := [] } { current := {} } where
  current := rfl
  enclosing := rfl
  wellNamed := by simp [Listing.WellNamed, Listing.branches]
  levels := by simp

/-- One token leaves the open blocks matched, or is beyond the limit in both. -/
theorem Gathers.take {listed : Assembly Listing} {keyed : Assembly Block}
    (h : Gathers split listed keyed) {token : Token}
    (htoken : ∀ selector, token = .opening selector → Text.Trimmed selector.toList) :
    Agree limit (Gathers split)
      (Assembly.take (Listing.assembler keepComments) limit listed token)
      (Assembly.take (Block.assembler split) limit keyed token) := by
  obtain ⟨current, enclosing, renamings⟩ := listed
  obtain ⟨block, around, others⟩ := keyed
  obtain ⟨rfl, rfl, hnamed, hlevels⟩ := h
  cases token with
  | comment text =>
    rw [take_comment, take_comment]
    refine .ok ⟨?_, rfl, ?_, hlevels⟩
    · cases keepComments with
      | false => rfl
      | true => exact (Listing.gather_comment current text).symm
    · cases keepComments with
      | false => exact hnamed
      | true => exact hnamed.concat (by simp [Item.branches])
  | declaration text =>
    rw [take_declaration, take_declaration]
    refine .ok ⟨(Listing.gather_declaration current (Declaration.ofText text)).symm, rfl, ?_,
      hlevels⟩
    refine hnamed.concat ?_
    cases Declaration.ofText text <;> simp [Item.ofDeclaration, Item.branches]
  | opening selector =>
    -- As many blocks are open in both, so that the limit holds for both or for none.
    by_cases hlimit : enclosing.length + 1 ≤ limit.toNat
    · rw [take_opening (by exact hlimit), take_opening (by simpa [depth] using hlimit)]
      refine .ok ⟨rfl, rfl, gathers_empty.wellNamed, ?_⟩
      exact List.forall_mem_cons.2 ⟨⟨htoken selector rfl, hnamed⟩, hlevels⟩
    · rw [take_opening_of_lt (by simpa [depth] using hlimit),
        take_opening_of_lt (by simpa [depth] using hlimit)]
      exact .tooDeep
  | closing =>
    cases enclosing with
    | nil =>
      rw [take_closing_nil rfl, take_closing_nil rfl]
      exact .ok ⟨rfl, rfl, hnamed, hlevels⟩
    | cons level rest =>
      -- The body is complete on both sides, and the level around it takes it in as a rule.
      obtain ⟨name, outer⟩ := level
      obtain ⟨⟨hname, houter⟩, hrest⟩ := List.forall_mem_cons.1 hlevels
      rw [take_closing_cons rfl, take_closing_cons rfl]
      refine .ok ⟨?_, rfl, houter.concat_rule hname hnamed, hrest⟩
      exact (Listing.gather_rule current houter.trimmed_keys
        (Selector.trimmed_of_mem_names hname)).symm

/-- Closing all blocks makes the keyed block of the listing. -/
theorem Gathers.collapse {listed : Assembly Listing} {keyed : Assembly Block}
    (h : Gathers split listed keyed) :
    Assembly.collapse (Block.assembler split) keyed.current keyed.enclosing =
        Listing.toBlock split (Assembly.collapse (Listing.assembler keepComments) listed.current
          listed.enclosing) ∧
      Listing.WellNamed split (Assembly.collapse (Listing.assembler keepComments) listed.current
        listed.enclosing) := by
  obtain ⟨current, enclosing, renamings⟩ := listed
  obtain ⟨block, around, others⟩ := keyed
  obtain ⟨rfl, rfl, hnamed, hlevels⟩ := h
  -- Each block that is closed becomes a rule of the one around it, which is then the current one.
  induction enclosing generalizing current with
  | nil => exact ⟨rfl, hnamed⟩
  | cons level rest ih =>
    obtain ⟨name, outer⟩ := level
    obtain ⟨⟨hname, houter⟩, hrest⟩ := List.forall_mem_cons.1 hlevels
    have hrule := Listing.gather_rule current houter.trimmed_keys
      (Selector.trimmed_of_mem_names hname)
    have hnext := ih (outer ++ [.rule name current]) (houter.concat_rule hname hnamed) hrest
    rw [hrule] at hnext
    exact hnext

end Assembly

/-- Assembling tokens as a keyed block is assembling them as a listing first. -/
theorem agree_assembled {tokens : List Token} (limit : UInt64) (split keepComments : Bool)
    (htokens : ∀ selector, .opening selector ∈ tokens → Text.Trimmed selector.toList) :
    Agree limit (fun listing block => block = Listing.toBlock split listing ∧ block.Keyed)
      (assembled (Listing.assembler keepComments) limit tokens)
      (assembled (Block.assembler split) limit tokens) := by
  refine Agree.map (Agree.foldlM (R := Assembly.Gathers split) ?_ Assembly.gathers_empty) ?_
  · intro token htoken listed keyed hgathers
    exact hgathers.take (fun selector hselector => htokens selector (hselector ▸ htoken))
  · intro listed keyed hgathers
    obtain ⟨hblock, hnamed⟩ := hgathers.collapse
    exact ⟨hblock, hblock ▸ hnamed.keyed_toBlock⟩

/-- A keyed block that a text is read as is the one that its listing makes. -/
theorem exists_listing_of_assembled {limit : UInt64} {split : Bool} {css : String} {block : Block}
    (h : assembled (Block.assembler split) limit (tokens css) = .ok block)
    (keepComments : Bool) :
    ∃ listing, assembled (Listing.assembler keepComments) limit (tokens css) = .ok listing ∧
      block = Listing.toBlock split listing ∧ block.Keyed := by
  have htrimmed : ∀ selector, .opening selector ∈ tokens css → Text.Trimmed selector.toList := by
    intro selector hselector
    rw [tokens_eq_tokensOf] at hselector
    exact trimmed_of_opening_mem hselector
  have hagree := agree_assembled limit split keepComments htrimmed
  rw [h] at hagree
  generalize assembled (Listing.assembler keepComments) limit (tokens css) = listed at hagree ⊢
  cases hagree with
  | ok hblock => exact ⟨_, rfl, hblock⟩

/-- A style sheet nests beyond the limit in both ways of reading, or else its keyed block is the one
that its listing makes, in which no two blocks and no two properties share a key. It makes no
difference what else the settings say about listings. -/
theorem Sheet.parse_keyed_eq_toBlock (settings : Settings) (comments split : Bool)
    (css : String) :
    (parse { settings with ordered := false } css = .error (.tooDeep settings.maxDepth) ∧
        parse { settings with ordered := true, comments := comments, split := split } css =
          .error (.tooDeep settings.maxDepth)) ∨
      ∃ listing,
        parse { settings with ordered := true, comments := comments, split := split } css =
            .ok (.listed listing) ∧
          parse { settings with ordered := false } css =
            .ok (.keyed (Listing.toBlock settings.split listing)) ∧
          (Listing.toBlock settings.split listing).Keyed := by
  have htrimmed : ∀ selector, .opening selector ∈ tokens (settings.source css) →
      Text.Trimmed selector.toList := by
    intro selector hselector
    rw [tokens_eq_tokensOf] at hselector
    exact trimmed_of_opening_mem hselector
  have hlisted : parse { settings with ordered := true, comments := comments, split := split } css =
      (assembled (Listing.assembler (comments && !settings.stripComments)) settings.maxDepth
        (tokens (settings.source css))).map .listed := parse_ordered rfl css
  have hkeyed : parse { settings with ordered := false } css =
      (assembled (Block.assembler settings.split) settings.maxDepth
        (tokens (settings.source css))).map .keyed := parse_keyed rfl css
  have hagree := agree_assembled settings.maxDepth settings.split
    (comments && !settings.stripComments) htrimmed
  rw [hlisted, hkeyed]
  -- Nothing is needed of the two assemblies but that they agree.
  generalize assembled (Listing.assembler _) settings.maxDepth _ = left at hagree ⊢
  generalize assembled (Block.assembler _) settings.maxDepth _ = right at hagree ⊢
  cases hagree with
  | tooDeep => exact .inl ⟨rfl, rfl⟩
  | @ok listing block h =>
    obtain ⟨rfl, hdistinct⟩ := h
    exact .inr ⟨listing, rfl, rfl, hdistinct⟩

end StyleTree
