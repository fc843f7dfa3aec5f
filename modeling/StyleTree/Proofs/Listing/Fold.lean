import StyleTree.Listing
import StyleTree.Proofs.Block.Properties
import StyleTree.Proofs.Block.Tree
import StyleTree.Proofs.Selector.Keys

/-!
# Listings folded to keyed blocks

A listing determines the keyed block of the same style sheet. Level by level, comments are dropped,
statements are collected, properties are grouped by name, each rule is nested under its selectors,
and rules for certain media go behind the others.
-/

namespace StyleTree

/-- The selectors under which a rule is nested: those of the list that its name is, if lists are to
be split, and otherwise the name as it is. -/
def Selector.names (split : Bool) (name : String) : List String :=
  if split then pieces name else [name]

theorem Selector.trimmed_of_mem_names {split : Bool} {name : String}
    (h : Text.Trimmed name.toList) :
    ∀ selector ∈ names split name, Text.Trimmed selector.toList := by
  intro selector hselector
  cases split with
  | false =>
    rw [List.mem_singleton.1 hselector]
    exact h
  | true =>
    obtain ⟨piece, hpiece, rfl⟩ := List.mem_map.1 hselector
    obtain ⟨segment, -, rfl⟩ := List.mem_map.1 (List.mem_filter.1 hpiece).1
    rw [String.toList_ofList]
    exact Text.trimmed_trim segment

namespace Listing

/-- The properties that a listing declares, with their values. -/
def pairs (listing : Listing) : List (String × String) :=
  listing.filterMap fun
    | .property name value => some (name, value)
    | _ => none

/-- The statements of a listing. -/
def statements (listing : Listing) : List String :=
  listing.filterMap fun
    | .statement text => some text
    | _ => none

/-- The block with the declarations of a listing and with nested blocks that are keyed by their
selectors and by how many of the blocks before them have the same one. -/
def blockWith (branches : Table Block) (listing : Listing) : Block where
  children := Selector.numbered [] branches
  properties := Block.grouped (pairs listing)
  statements := statements listing

end Listing

mutual

/-- The blocks that an item makes: one under each selector of a rule, and none otherwise. -/
def Item.branches (split : Bool) : Item → Table Block
  | .rule name body =>
    (Selector.names split name).map fun selector =>
      (selector, (Listing.blockWith (Listing.branches split body) body).mediaLast)
  | .comment _ => []
  | .property _ _ => []
  | .statement _ => []

/-- The blocks that the rules of a listing make, under their selectors. -/
def Listing.branches (split : Bool) : List Item → Table Block
  | [] => []
  | item :: rest => item.branches split ++ Listing.branches split rest

end

namespace Listing

/-- The keyed block that a listing makes as long as more items may follow. -/
def gather (split : Bool) (listing : Listing) : Block :=
  blockWith (branches split listing) listing

/-- The keyed block that a listing makes, with the blocks for certain media at its end. -/
def toBlock (split : Bool) (listing : Listing) : Block :=
  (gather split listing).mediaLast

variable {split : Bool}

theorem branches_rule (name : String) (body : Listing) :
    (Item.rule name body).branches split =
      (Selector.names split name).map fun selector => (selector, toBlock split body) :=
  rfl

/-- What the block of a listing holds. Its nested blocks are the branches with numbers on their
keys, after those for certain media were moved behind the others, in the order that each kind had
before. -/
theorem toBlock_eq_iff {listing : Listing} {block : Block} :
    toBlock split listing = block ↔
      Block.IsStableMove (Selector.numbered [] (branches split listing)) block.children ∧
        block.properties = Block.grouped (pairs listing) ∧
        block.statements = statements listing := by
  have hmoved : (toBlock split listing).children = block.children ↔
      Block.IsStableMove (Selector.numbered [] (branches split listing)) block.children :=
    Block.children_mediaLast_eq_iff
  rw [← hmoved]
  constructor
  · rintro rfl
    exact ⟨rfl, rfl, rfl⟩
  · obtain ⟨children, properties, statements⟩ := block
    rintro ⟨rfl, rfl, rfl⟩
    rfl

theorem branches_concat (listing : Listing) (item : Item) :
    branches split (listing ++ [item]) = branches split listing ++ item.branches split := by
  induction listing with
  | nil => simp [branches]
  | cons first rest ih => rw [List.cons_append, branches, branches, ih, List.append_assoc]

/-! ### Items -/

theorem property_mem_of_mem_pairs {listing : Listing} {name value : String}
    (h : (name, value) ∈ pairs listing) : .property name value ∈ listing := by
  obtain ⟨item, hitem, hsome⟩ := List.mem_filterMap.1 h
  cases item with
  | property other declared =>
    obtain ⟨rfl, rfl⟩ : other = name ∧ declared = value := by simpa using hsome
    exact hitem
  | comment | rule | statement => simp at hsome

theorem statement_mem_of_mem_statements {listing : Listing} {text : String}
    (h : text ∈ statements listing) : .statement text ∈ listing := by
  obtain ⟨item, hitem, hsome⟩ := List.mem_filterMap.1 h
  cases item with
  | statement other =>
    obtain rfl : other = text := by simpa using hsome
    exact hitem
  | comment | rule | property => simp at hsome

theorem exists_rule_of_mem_keys {listing : Listing} {key : String}
    (h : key ∈ (branches split listing).keys) :
    ∃ name body, .rule name body ∈ listing ∧ key ∈ Selector.names split name := by
  induction listing with
  | nil => simp [branches, Table.keys] at h
  | cons item rest ih =>
    rw [branches, Table.keys, List.map_append] at h
    rcases List.mem_append.1 h with hfirst | hrest
    · cases item with
      | rule name body =>
        refine ⟨name, body, List.mem_cons_self .., ?_⟩
        simpa [branches_rule] using hfirst
      | comment | property | statement => simp [Item.branches] at hfirst
    · obtain ⟨name, body, hmem, hkey⟩ := ih hrest
      exact ⟨name, body, List.mem_cons_of_mem _ hmem, hkey⟩

/-! ### One item more -/

theorem gather_comment (listing : Listing) (text : String) :
    gather split (listing ++ [.comment text]) = gather split listing := by
  simp [gather, branches_concat, Item.branches, blockWith, pairs, statements]

theorem gather_declaration (listing : Listing) (declaration : Declaration) :
    gather split (listing ++ [.ofDeclaration declaration]) =
      (gather split listing).addDeclaration declaration := by
  cases declaration with
  | property name value =>
    have hgrouped := Block.grouped_concat (gather split listing) (pairs listing) name value
    have hpairs : pairs (listing ++ [.property name value]) = pairs listing ++ [(name, value)] := by
      simp [pairs]
    have hstatements : statements (listing ++ [.property name value]) = statements listing := by
      simp [statements]
    rw [Item.ofDeclaration, gather, branches_concat, Item.branches, List.append_nil, blockWith,
      hpairs, hstatements]
    exact hgrouped.symm
  | statement text =>
    have hpairs : pairs (listing ++ [.statement text]) = pairs listing := by
      simp [pairs]
    have hstatements : statements (listing ++ [.statement text]) =
        statements listing ++ [text] := by
      simp [statements]
    rw [Item.ofDeclaration, gather, branches_concat, Item.branches, List.append_nil, blockWith,
      hpairs, hstatements]
    rfl

/-- Nesting a block under several selectors is numbering it under each of them. -/
theorem nestUnderEach_blockWith {branches : Table Block} {selectors : List String}
    (hbranches : ∀ key ∈ branches.keys, Text.Trimmed key.toList)
    (hselectors : ∀ selector ∈ selectors, Text.Trimmed selector.toList) (listing : Listing)
    (child : Block) :
    ((blockWith branches listing).nestUnderEach child selectors).block =
      blockWith (branches ++ selectors.map fun selector => (selector, child)) listing := by
  -- The branches grow by one with each selector, so that a list may name a selector twice.
  induction selectors generalizing branches with
  | nil => simp [Block.nestUnderEach]
  | cons selector rest ih =>
    obtain ⟨hselector, hrest⟩ := List.forall_mem_cons.1 hselectors
    have hfirst : ((blockWith branches listing).nestUnder child selector).block =
        blockWith (branches ++ [(selector, child)]) listing := by
      have hkey := Selector.freshKey_numbered hbranches hselector
      simp only [Block.nestUnder, Block.selectors, blockWith, hkey, Selector.numbered_append,
        Selector.numbered, List.nil_append]
    have hmore : ∀ key ∈ Table.keys (branches ++ [(selector, child)]),
        Text.Trimmed key.toList := by
      intro key hkey
      rw [Table.keys, List.map_append] at hkey
      rcases List.mem_append.1 hkey with hold | hnew
      · exact hbranches key hold
      · rw [List.mem_singleton.1 hnew]
        exact hselector
    rw [Block.nestUnderEach, hfirst, ih hmore hrest, List.append_assoc]
    rfl

/-- A keyed block takes in a rule as the fold does, if all selectors are trimmed. -/
theorem gather_rule {listing : Listing} {name : String} (body : Listing)
    (hbranches : ∀ key ∈ (branches split listing).keys, Text.Trimmed key.toList)
    (hnames : ∀ selector ∈ Selector.names split name, Text.Trimmed selector.toList) :
    gather split (listing ++ [.rule name body]) =
      (Block.nest split name (toBlock split body) (gather split listing)).block := by
  have hnest : (Block.nest split name (toBlock split body) (gather split listing)).block =
      ((gather split listing).nestUnderEach (toBlock split body)
        (Selector.names split name)).block := by
    rw [Block.nest, ← Selector.names]
    cases Selector.names split name <;> rfl
  have hrest : ∀ table,
      blockWith table (listing ++ [.rule name body]) = blockWith table listing := by
    intro table
    simp [blockWith, pairs, statements]
  rw [hnest, gather, gather, nestUnderEach_blockWith hbranches hnames, hrest, branches_concat,
    branches_rule]

/-! ### Keys -/

/-- The rules have trimmed selectors, and what is nested under them has distinct keys. -/
def WellNamed (split : Bool) (listing : Listing) : Prop :=
  ∀ branch ∈ branches split listing, Text.Trimmed branch.1.toList ∧ branch.2.Keyed

theorem WellNamed.trimmed_keys {listing : Listing} (h : WellNamed split listing) :
    ∀ key ∈ (branches split listing).keys, Text.Trimmed key.toList := by
  intro key hkey
  obtain ⟨branch, hbranch, rfl⟩ := List.mem_map.1 hkey
  exact (h branch hbranch).1

theorem WellNamed.concat {listing : Listing} (h : WellNamed split listing) {item : Item}
    (hitem : ∀ branch ∈ item.branches split, Text.Trimmed branch.1.toList ∧ branch.2.Keyed) :
    WellNamed split (listing ++ [item]) := by
  intro branch hbranch
  rw [branches_concat] at hbranch
  rcases List.mem_append.1 hbranch with hold | hnew
  · exact h branch hold
  · exact hitem branch hnew

/-- Every nested block of the block that a listing makes is one of the branches. -/
theorem exists_branch_of_mem {listing : Listing} {entry : String × Block}
    (h : entry ∈ (toBlock split listing).children) :
    ∃ branch ∈ branches split listing, branch.2 = entry.2 := by
  have hgathered : entry ∈ Selector.numbered [] (branches split listing) :=
    (Block.children_mediaLast_perm _).mem_iff.1 h
  -- Numbering changes the keys only.
  have hblock : entry.2 ∈ (branches split listing).map Prod.snd := by
    rw [← Selector.values_numbered []]
    exact List.mem_map.2 ⟨entry, hgathered, rfl⟩
  exact List.mem_map.1 hblock

/-- No two nested blocks and no two properties of the block that a listing makes have the same key,
at no level. -/
theorem WellNamed.keyed_toBlock {listing : Listing} (h : WellNamed split listing) :
    (toBlock split listing).Keyed := by
  have hselectors : (gather split listing).selectors.Nodup :=
    Selector.nodup_keys_numbered h.trimmed_keys
  have hnames : (Table.keys (gather split listing).properties).Nodup := by
    rw [gather, blockWith, Block.keys_grouped]
    exact Block.nodup_eraseDups _
  refine Block.everywhere_iff.2 ⟨⟨?_, hnames⟩, Block.everywhereIn_iff.2 ?_⟩
  · exact (Block.selectors_mediaLast_perm _).nodup_iff.2 hselectors
  · intro entry hentry
    obtain ⟨branch, hbranch, hsame⟩ := exists_branch_of_mem hentry
    rw [← hsame]
    exact (h branch hbranch).2

/-- A rule may be added if its name is trimmed and the same holds of its body. -/
theorem WellNamed.concat_rule {listing body : Listing} {name : String}
    (h : WellNamed split listing) (hname : Text.Trimmed name.toList)
    (hbody : WellNamed split body) : WellNamed split (listing ++ [.rule name body]) := by
  refine h.concat ?_
  intro branch hbranch
  obtain ⟨selector, hselector, rfl⟩ := List.mem_map.1 hbranch
  exact ⟨Selector.trimmed_of_mem_names hname selector hselector, hbody.keyed_toBlock⟩

example : toBlock true [.rule "a, b" [.property "x" "1"], .comment "/**/",
    .rule "@media print" [], .rule "a" [], .property "y" "1", .property "y" "2"] =
    ⟨[("a", ⟨[], [("x", .once "1")], []⟩), ("b", ⟨[], [("x", .once "1")], []⟩), ("a ", {}),
      ("@media print", {})], [("y", .repeated ["1", "2"])], []⟩ := by
  decide +kernel

end Listing

end StyleTree
