import Mathlib.Algebra.GroupWithZero.Nat
import StyleTree.Proofs.Assembly.Log
import StyleTree.Proofs.Block.Tree
import StyleTree.Proofs.Selector.Keys
import StyleTree.Proofs.Token.Fragment

/-!
# How many blocks were renamed

Without lists, the number of renamings is that of the keys with a space at the end, on all levels
together: no selector ends with a space, and no block is stored in place of another.
-/

namespace StyleTree

/-! ### Open blocks -/

/-- A number that can be read off each block, which nesting one block in another raises by that of
the nested block and the renamings. -/
structure Assembler.Weighs {β : Type} (assembler : Assembler β) (weight : β → Nat) : Prop where
  empty : weight assembler.empty = 0
  addComment : ∀ block text, weight (assembler.addComment block text) = weight block
  addDeclaration : ∀ block declaration,
    weight (assembler.addDeclaration block declaration) = weight block
  complete : ∀ block, weight (assembler.complete block) = weight block
  nest : ∀ selector : String, Text.Trimmed selector.toList → ∀ child block,
    weight (assembler.nest selector child block).block =
      weight block + weight child + (assembler.nest selector child block).renamings

namespace Assembly

variable {β : Type} {assembler : Assembler β} {weight : β → Nat} {limit : UInt64}

/-- The number of renamings up to a point is the weight of all open blocks. -/
structure Counts (weight : β → Nat) (assembly : Assembly β) : Prop where
  renamings_eq : assembly.renamings = weight assembly.current +
    (assembly.enclosing.map fun level => weight level.2).sum
  trimmed : ∀ level ∈ assembly.enclosing, Text.Trimmed level.1.toList

/-- A block that is closed adds what nesting it adds. -/
theorem Counts.close (hweighs : assembler.Weighs weight) {current outer : β} {selector : String}
    {rest : List (String × β)} {renamings : Nat}
    (h : Counts weight ⟨current, (selector, outer) :: rest, renamings⟩) :
    Counts weight ⟨(assembler.nest selector (assembler.complete current) outer).block, rest,
      renamings + (assembler.nest selector (assembler.complete current) outer).renamings⟩ := by
  obtain ⟨hrenamings, htrimmed⟩ := h
  obtain ⟨hselector, hrest⟩ := List.forall_mem_cons.1 htrimmed
  have hnest := hweighs.nest selector hselector (assembler.complete current) outer
  rw [hweighs.complete] at hnest
  refine ⟨?_, hrest⟩
  simp only [List.map_cons, List.sum_cons] at hrenamings ⊢
  omega

theorem Counts.takes (hweighs : assembler.Weighs weight) {assembly next : Assembly β}
    {token : Token} (h : assembly.Counts weight)
    (htakes : Takes assembler limit assembly token next)
    (htoken : ∀ selector, token = .opening selector → Text.Trimmed selector.toList) :
    next.Counts weight := by
  cases htakes with
  | comment current enclosing renamings text =>
    refine ⟨?_, h.trimmed⟩
    rw [h.renamings_eq, hweighs.addComment]
  | declaration current enclosing renamings text =>
    refine ⟨?_, h.trimmed⟩
    rw [h.renamings_eq, hweighs.addDeclaration]
  | opening current enclosing renamings selector =>
    refine ⟨?_, List.forall_mem_cons.2 ⟨htoken selector rfl, h.trimmed⟩⟩
    rw [h.renamings_eq, hweighs.empty, List.map_cons, List.sum_cons, Nat.zero_add]
  | unmatched => exact h
  | closing => exact h.close hweighs

theorem Counts.foldlM (hweighs : assembler.Weighs weight) {assembly last : Assembly β}
    {tokens : List Token} (h : assembly.Counts weight)
    (htokens : ∀ selector, .opening selector ∈ tokens → Text.Trimmed selector.toList)
    (hrun : tokens.foldlM (take assembler limit) assembly = .ok last) : last.Counts weight := by
  induction tokens generalizing assembly with
  | nil =>
    obtain rfl := Except.ok.inj hrun
    exact h
  | cons token rest ih =>
    obtain ⟨next, htakes, hrest⟩ := exists_takes_of_foldlM hrun
    refine ih (h.takes hweighs htakes fun selector hselector => ?_)
      (fun selector hselector => ?_) hrest
    · exact htokens selector (hselector ▸ List.mem_cons_self ..)
    · exact htokens selector (List.mem_cons_of_mem _ hselector)

theorem Counts.finish (hweighs : assembler.Weighs weight) {current : β}
    {enclosing : List (String × β)} {renamings : Nat}
    (h : Counts weight ⟨current, enclosing, renamings⟩) :
    (finish assembler current enclosing renamings).1.2 =
      weight (finish assembler current enclosing renamings).1.1 := by
  induction enclosing generalizing current renamings with
  | nil =>
    have hrenamings := h.renamings_eq
    exact hrenamings.trans (hweighs.complete current).symm
  | cons level rest ih => exact ih (h.close hweighs)

end Assembly

/-- The renamings of a style sheet are the weight of its block. -/
theorem Assembler.Weighs.renamings_eq {β : Type} {assembler : Assembler β} {weight : β → Nat}
    (hweighs : assembler.Weighs weight) {limit : UInt64} {css : String} {block : β}
    {renamings : Nat}
    (h : (assemble assembler limit (Lexing.ofText css)).1 = .ok (block, renamings)) :
    renamings = weight block := by
  have htrimmed : ∀ selector, .opening selector ∈ tokens css → Text.Trimmed selector.toList := by
    intro selector hselector
    rw [tokens_eq_tokensOf] at hselector
    exact trimmed_of_opening_mem hselector
  have hstart : Assembly.Counts weight { current := assembler.empty } :=
    ⟨hweighs.empty.symm, fun _ h => absurd h List.not_mem_nil⟩
  have hrun : (Assembly.run assembler limit { current := assembler.empty }
      (Lexing.ofText css).lexemes).1 =
    (tokens css).foldlM (Assembly.take assembler limit) { current := assembler.empty } :=
    Assembly.run_fst _
  rw [assemble] at h
  generalize Assembly.run assembler limit { current := assembler.empty }
    (Lexing.ofText css).lexemes = found at h hrun
  obtain ⟨_ | assembly, events⟩ := found
  · cases h
  · have hcounts := hstart.foldlM hweighs htrimmed hrun.symm
    have hfinish := hcounts.finish hweighs
    rw [Except.ok.inj h] at hfinish
    exact hfinish

/-- Nothing is renamed in a listing. -/
theorem Listing.weighs_assembler (keepComments : Bool) :
    (assembler keepComments).Weighs fun _ => 0 :=
  ⟨rfl, fun _ _ => rfl, fun _ _ => rfl, fun _ => rfl, fun _ _ _ _ => rfl⟩

/-! ### Keys with a space at the end -/

namespace Selector

/-- Whether a key ends with a space. -/
def isSpaced (key : String) : Bool :=
  key.toList.getLast? == some ' '

theorem exists_freshKey_eq_padded (taken : List String) (key : String) :
    ∃ spaces, freshKey taken key = padded key spaces := by
  fun_induction freshKey taken key with
  | case1 taken key hmem ih =>
    obtain ⟨spaces, hspaces⟩ := ih
    exact ⟨spaces + 1, by rw [hspaces, padded_push]⟩
  | case2 taken key hfree => exact ⟨0, (padded_zero key).symm⟩

/-- The key of a trimmed selector ends with a space exactly if it is another than the selector. -/
theorem isSpaced_freshKey {selector : String} (h : Text.Trimmed selector.toList)
    (taken : List String) :
    isSpaced (freshKey taken selector) = (freshKey taken selector != selector) := by
  obtain ⟨spaces, hkey⟩ := exists_freshKey_eq_padded taken selector
  rw [hkey]
  cases spaces with
  | zero =>
    have hspace : selector.toList.getLast? ≠ some ' ' :=
      fun hlast => absurd (h.2 ' ' hlast) (by decide)
    simpa [isSpaced] using hspace
  | succ spaces =>
    have hlast : isSpaced (padded selector (spaces + 1)) = true := by
      simp [isSpaced, List.replicate_succ']
    have hne : padded selector (spaces + 1) ≠ selector := by
      intro heq
      have hlength := congrArg (List.length ∘ String.toList) heq
      simp at hlength
    rw [hlast, bne_iff_ne.2 hne]

end Selector

namespace Block

mutual

/-- The keys of the blocks that are nested in a block, on all levels. -/
def allKeys : Block → List String
  | ⟨children, _, _⟩ => allKeysIn children

/-- The keys of nested blocks and of all blocks that are nested in them. -/
def allKeysIn : List (String × Block) → List String
  | [] => []
  | (key, child) :: rest => key :: (child.allKeys ++ allKeysIn rest)

end

theorem allKeysIn_eq (children : List (String × Block)) :
    allKeysIn children = children.flatMap fun entry => entry.1 :: entry.2.allKeys := by
  induction children with
  | nil => rfl
  | cons entry rest ih => rw [allKeysIn, ih]; rfl

theorem allKeys_eq (block : Block) :
    block.allKeys = block.children.flatMap fun entry => entry.1 :: entry.2.allKeys := by
  cases block
  exact allKeysIn_eq _

/-- How many keys of all levels end with a space. -/
def spacedKeys (block : Block) : Nat :=
  block.allKeys.countP Selector.isSpaced

theorem spacedKeys_mediaLast (block : Block) : block.mediaLast.spacedKeys = block.spacedKeys := by
  rw [spacedKeys, spacedKeys, allKeys_eq, allKeys_eq]
  exact (block.children_mediaLast_perm.flatMap_right _).countP_eq _

theorem spacedKeys_addDeclaration (block : Block) (declaration : Declaration) :
    (block.addDeclaration declaration).spacedKeys = block.spacedKeys := by
  rw [spacedKeys, spacedKeys, allKeys_eq, allKeys_eq]
  cases declaration <;> rfl

/-- Nesting a block adds its keys and, if it is renamed, its own. -/
theorem spacedKeys_nest {selector : String} (h : Text.Trimmed selector.toList)
    (child block : Block) :
    (nest false selector child block).block.spacedKeys =
      block.spacedKeys + child.spacedKeys + (nest false selector child block).renamings := by
  have hkey := Selector.isSpaced_freshKey h block.selectors
  have hkeys : (nest false selector child block).block.allKeys = block.allKeys ++
      Selector.freshKey block.selectors selector :: child.allKeys := by
    rw [allKeys_eq, allKeys_eq block]
    simp [nest, nestUnderEach, nestUnder]
  rw [spacedKeys, hkeys, List.countP_append, List.countP_cons, hkey]
  simp [nest, nestUnderEach, nestUnder, spacedKeys]
  omega

/-- What is renamed in a keyed block gets a key that ends with a space, if lists of selectors are
not split. -/
theorem weighs_assembler : (assembler false).Weighs spacedKeys where
  empty := rfl
  addComment _ _ := rfl
  addDeclaration := spacedKeys_addDeclaration
  complete := spacedKeys_mediaLast
  nest _ h child block := spacedKeys_nest h child block

end Block

namespace Sheet

variable {settings : Settings} {css : String} {sheet : Sheet}

/-- What a style sheet is read as, with what is noticed, is assembled in one of two ways. -/
theorem exists_assemble_of_parse (h : parse settings css = .ok sheet) :
    ∃ events renamings,
      (parseLogged settings css).2 =
        events ++ [.finished (settings.source css).utf8ByteSize renamings] ∧
      ((settings.ordered = true ∧ ∃ listing, sheet = .listed listing ∧
          assemble (Listing.assembler settings.keepsComments) settings.maxDepth
            (Lexing.ofText (settings.source css)) = (.ok (listing, renamings), events)) ∨
        (settings.ordered = false ∧ ∃ block, sheet = .keyed block ∧
          assemble (Block.assembler settings.split) settings.maxDepth
            (Lexing.ofText (settings.source css)) = (.ok (block, renamings), events))) := by
  rw [parse, parseLogged, parseSource] at h
  rw [parseLogged, parseSource]
  cases hordered : settings.ordered with
  | true =>
    rw [if_pos hordered] at h
    cases hassemble : assemble (Listing.assembler settings.keepsComments) settings.maxDepth
        (Lexing.ofText (settings.source css)) with
    | mk result events =>
      rw [hassemble] at h
      cases result with
      | error error => cases h
      | ok pair =>
        exact ⟨events, pair.2, rfl, .inl ⟨rfl, pair.1, (Except.ok.inj h).symm, rfl⟩⟩
  | false =>
    rw [if_neg (by simp [hordered])] at h
    cases hassemble : assemble (Block.assembler settings.split) settings.maxDepth
        (Lexing.ofText (settings.source css)) with
    | mk result events =>
      rw [hassemble] at h
      cases result with
      | error error => cases h
      | ok pair =>
        exact ⟨events, pair.2, rfl, .inr ⟨rfl, pair.1, (Except.ok.inj h).symm, rfl⟩⟩

/-- The log of a style sheet that was read to its end. The last report says how long the text that
was read is, in bytes, and how many renamings the log has. No other report reads like it. There are
no renamings in a listing, and those of a keyed block are its keys that end with a space, on all
levels, if lists of selectors are not split. -/
theorem log_of_parse (h : parse settings css = .ok sheet) :
    ∃ events last, (parseLogged settings css).2 = events ++ [last] ∧ last.level = .debug ∧
      last.message = "Parsed " ++ toString (settings.source css).utf8ByteSize ++ " bytes of CSS (" ++
        toString ((parseLogged settings css).2.countP Event.isRenaming) ++
        " duplicate selectors renamed)" ∧
      (∀ event ∈ events, event.isEnd = false) ∧
      (settings.ordered = true → (parseLogged settings css).2.countP Event.isRenaming = 0) ∧
      (settings.ordered = false → settings.split = false → ∃ block, sheet = .keyed block ∧
        (parseLogged settings css).2.countP Event.isRenaming =
          block.allKeys.countP Selector.isSpaced) := by
  obtain ⟨events, renamings, hlog, hassemble⟩ := exists_assemble_of_parse h
  have htallies : Tallies renamings events := by
    rcases hassemble with ⟨-, listing, -, hassemble⟩ | ⟨-, block, -, hassemble⟩
    · exact tallies_assemble (Listing.isTallied_assembler _) hassemble
    · exact tallies_assemble (Block.isTallied_assembler _) hassemble
  have hcount : (parseLogged settings css).2.countP Event.isRenaming = renamings := by
    rw [hlog, List.countP_append, htallies.countP_eq]
    rfl
  rw [hcount]
  refine ⟨events, _, hlog, rfl, rfl, htallies.not_isEnd, fun hordered => ?_,
    fun hordered hsplit => ?_⟩
  · rcases hassemble with ⟨-, listing, -, hassemble⟩ | ⟨hkeyed, -⟩
    · exact (Listing.weighs_assembler _).renamings_eq (congrArg Prod.fst hassemble)
    · exact absurd (hordered.symm.trans hkeyed) (by decide)
  · rcases hassemble with ⟨hlisted, -⟩ | ⟨-, block, hsheet, hassemble⟩
    · exact absurd (hordered.symm.trans hlisted) (by decide)
    · rw [hsplit] at hassemble
      exact ⟨block, hsheet, Block.weighs_assembler.renamings_eq (congrArg Prod.fst hassemble)⟩

/-- A style sheet with the same selector three times in a block for certain media, and another one
twice behind that block. -/
def repeatedSelectors : String :=
  "@media x\x7bb\x7b\x7db\x7b\x7d b\x7b\x7d\x7da\x7b\x7da\x7b\x7d"

theorem log_of_parse_repeatedSelectors :
    parse {} repeatedSelectors = .ok (.keyed ⟨[("a", {}), ("a ", {}),
        ("@media x", ⟨[("b", {}), ("b ", {}), ("b  ", {})], [], []⟩)], [], []⟩) ∧
      ∃ events last, (parseLogged {} repeatedSelectors).2 = events ++ [last] ∧
        last.message = "Parsed 26 bytes of CSS (3 duplicate selectors renamed)" ∧
        ∀ event ∈ events, event.isEnd = false := by
  have hparse : parse {} repeatedSelectors = .ok (.keyed ⟨[("a", {}), ("a ", {}),
      ("@media x", ⟨[("b", {}), ("b ", {}), ("b  ", {})], [], []⟩)], [], []⟩) := by
    decide +kernel
  have hcount : (parseLogged {} repeatedSelectors).2.countP Event.isRenaming = 3 := by
    decide +kernel
  obtain ⟨events, last, hlog, -, hmessage, hends, -⟩ := log_of_parse hparse
  rw [hcount] at hmessage
  exact ⟨hparse, events, last, hlog, hmessage.trans (by decide +kernel), hends⟩

end Sheet

end StyleTree
