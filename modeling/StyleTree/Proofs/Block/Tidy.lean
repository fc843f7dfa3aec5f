import StyleTree.Proofs.Block.Depth
import StyleTree.Proofs.Listing.Levels
import StyleTree.Proofs.Selector.Counting
import StyleTree.Proofs.Sheet.Agreement
import StyleTree.Proofs.Token.Line

namespace StyleTree

/-- There is something in a text, and no blanks are around it. -/
def Text.IsBare (text : String) : Prop :=
  text ≠ "" ∧ Text.Trimmed text.toList

/-- A line that is kept with its semicolon, since no name can be read off it. -/
def Declaration.IsNameless (line : String) : Prop :=
  ∃ text : String, line = text.push ';' ∧ Text.IsBare text ∧ nameAndValue? text.toList = none

/-- What each level of a block has from being read. -/
structure Block.Tidy (block : Block) : Prop where
  /-- Each key is a selector with spaces at its end, and the key with one space less is there
  before it. -/
  keys : Selector.Counted (fun selector _ => Text.IsBare selector) block.selectors
  media : block.selectors.Pairwise fun earlier later =>
    Selector.isMedia earlier = true → Selector.isMedia later = true
  names : ∀ entry ∈ block.properties, Text.IsBare entry.1
  values : ∀ entry ∈ block.properties, ∀ value ∈ entry.2.values, Text.Trimmed value.toList
  declarable : ∀ entry ∈ block.properties, entry.2.Declarable
  statements : ∀ line ∈ block.statements, Declaration.IsNameless line

/-- A part of a listing that leaves the keyed block tidy. -/
def Part.Tidy : Part → Prop
  | .comment _ => True
  | .declaration (.property name value) => Text.IsBare name ∧ Text.Trimmed value.toList
  | .declaration (.statement line) => Declaration.IsNameless line
  | .opening name => Text.IsBare name
  | .closing => True

/-! ### Tokens -/

theorem IsRunText.isBare {ending : Ending} {text : String} (h : IsRunText ending text.toList) :
    Text.IsBare text := by
  refine ⟨?_, h.trimmed⟩
  rintro rfl
  exact h.ne_nil rfl

theorem Declaration.tidy_ofText {text : String} (h : Text.IsBare text) :
    (Part.declaration (ofText text)).Tidy := by
  rw [ofText]
  split
  · rename_i name value hsome
    obtain ⟨before, after, -, -, -, hname, rfl, rfl⟩ := nameAndValue?_eq_some_iff.1 hsome
    refine ⟨⟨?_, ?_⟩, ?_⟩
    · intro hempty
      exact hname (by simpa using congrArg String.toList hempty)
    · rw [String.toList_ofList]
      exact Text.trimmed_trim before
    · rw [String.toList_ofList]
      exact Text.trimmed_trim after
  · rename_i hnone
    exact ⟨text, rfl, h, hnone⟩

theorem Lexes.tidy_part {text rest : List Char} {token : Token} (h : Lexes text token rest) :
    token.part.Tidy := by
  cases token with
  | comment => trivial
  | closing => trivial
  | opening name => exact h.isRunText_of_opening.isBare
  | declaration content =>
    obtain ⟨ending, hrun⟩ := h.exists_isRunText_of_declaration
    exact Declaration.tidy_ofText hrun.isBare

/-! ### Listings -/

theorem Selector.isBare_of_mem_names {split : Bool} {name : String} (h : Text.IsBare name) :
    ∀ selector ∈ names split name, Text.IsBare selector := by
  intro selector hselector
  refine ⟨?_, trimmed_of_mem_names h.2 selector hselector⟩
  cases split with
  | false =>
    rw [List.mem_singleton.1 hselector]
    exact h.1
  | true =>
    obtain ⟨piece, hpiece, rfl⟩ := List.mem_map.1 hselector
    intro hempty
    have hnil : piece = [] := by simpa using congrArg String.toList hempty
    simpa [hnil] using (List.mem_filter.1 hpiece).2

namespace Listing

variable {split : Bool}

/-- The keys that the rules of a listing get count their selectors, none of which is empty. -/
theorem counted_numbered_branches {listing : Listing}
    (h : ∀ part ∈ parts listing, part.Tidy) :
    Selector.Counted (fun selector _ => Text.IsBare selector)
      (Selector.numbered [] (branches split listing)).keys := by
  have hkeys : ∀ key ∈ (branches split listing).keys, Text.IsBare key := by
    intro key hkey
    obtain ⟨name, body, hitem, hname⟩ := exists_rule_of_mem_keys hkey
    have hopening : (Part.opening name).Tidy := h _ (mem_parts hitem (List.mem_cons_self ..))
    exact Selector.isBare_of_mem_names hopening key hname
  apply Selector.counted_numbered
  · intro key hkey
    exact (hkeys key hkey).2
  · intro key hkey spaces
    exact hkeys key hkey

theorem tidy_toBlock (listing : Listing) (h : ∀ part ∈ parts listing, part.Tidy) :
    (toBlock split listing).Tidy := by
  have hproperty : ∀ name value, (name, value) ∈ pairs listing →
      Text.IsBare name ∧ Text.Trimmed value.toList := by
    intro name value hpair
    exact h _ (mem_parts (property_mem_of_mem_pairs hpair) (List.mem_singleton_self _))
  refine ⟨?_, Block.media_mediaLast _, ?_, ?_, ?_, ?_⟩
  · exact Block.counted_selectors_mediaLast (counted_numbered_branches h)
  · intro entry hentry
    -- A name has at least one value, with which it was declared.
    obtain ⟨hdeclarable, hvalues⟩ := Block.of_mem_grouped hentry
    obtain ⟨value, hvalue⟩ := List.exists_mem_of_ne_nil _ hdeclarable.values_ne_nil
    exact (hproperty _ _ (hvalues value hvalue)).1
  · intro entry hentry value hvalue
    exact (hproperty _ _ ((Block.of_mem_grouped hentry).2 value hvalue)).2
  · intro entry hentry
    exact (Block.of_mem_grouped hentry).1
  · intro line hline
    exact h _ (mem_parts (statement_mem_of_mem_statements hline) (List.mem_singleton_self _))

end Listing

namespace Sheet

/-- Whatever the text, a keyed block that it is read as is tidy at every level, where no key is
used twice, and has no more levels than the limit of the settings. -/
theorem tidy_of_parse {settings : Settings} {css : String} {sheet : Sheet}
    (hordered : settings.ordered = false) (hparse : parse settings css = .ok sheet) :
    ∃ block, sheet = .keyed block ∧ block.Everywhere Block.Tidy ∧ block.Keyed ∧
      block.levels ≤ settings.maxDepth.toNat := by
  obtain ⟨block, rfl, hassembled⟩ := exists_assembled_of_parse_keyed hordered hparse
  obtain ⟨listing, hlisting, hblock, hkeyed⟩ := exists_listing_of_assembled hassembled false
  have hparts : ∀ part ∈ Listing.parts listing, part.Tidy :=
    forall_mem_parts_of_lexes hlisting (fun _ _ _ hlexes => hlexes.tidy_part) trivial
  refine ⟨block, rfl, ?_, hkeyed, Block.levels_assembled hassembled⟩
  rw [hblock]
  exact Listing.everywhere_toBlock Listing.tidy_toBlock hparts

/-- A style sheet with selectors that come more than once, within lists and around a block for
certain media, and with a property that is declared twice. -/
def repeatedLists : String :=
  "a,, b \x7b x: 1; \x7d @MEDIA p \x7b a \x7b @q ; \x7d \x7d b,a \x7b x : 1; x:\x7d"

/-- The block that it is read as. -/
def repeatedListsBlock : Block where
  children :=
    [("a", ⟨[], [("x", .once "1")], []⟩), ("b", ⟨[], [("x", .once "1")], []⟩),
      ("b ", ⟨[], [("x", .repeated ["1", ""])], []⟩),
      ("a ", ⟨[], [("x", .repeated ["1", ""])], []⟩),
      ("@MEDIA p", ⟨[("a", ⟨[], [], ["@q;"]⟩)], [], []⟩)]

theorem tidy_of_parse_lists :
    parse { split := true } repeatedLists = .ok (.keyed repeatedListsBlock) ∧
      repeatedListsBlock.Everywhere Block.Tidy ∧ repeatedListsBlock.Keyed ∧
      repeatedListsBlock.levels ≤ 128 := by
  have hparse : parse { split := true } repeatedLists = .ok (.keyed repeatedListsBlock) := by
    decide +kernel
  refine ⟨hparse, ?_⟩
  obtain ⟨block, hblock, hconditions⟩ := tidy_of_parse rfl hparse
  rw [Sheet.keyed.inj hblock]
  exact hconditions

end Sheet

end StyleTree
