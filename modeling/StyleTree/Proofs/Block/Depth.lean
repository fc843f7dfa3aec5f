import StyleTree.Proofs.Assembly.Outcome
import StyleTree.Proofs.Block.Tree

namespace StyleTree.Block

/-! ### Levels of one block -/

theorem levelsIn_le_iff {children : List (String × Block)} {n : Nat} :
    levelsIn children ≤ n ↔ ∀ entry ∈ children, entry.2.levels + 1 ≤ n := by
  induction children with
  | nil => simp [levelsIn]
  | cons entry rest ih => rw [levelsIn, Nat.max_le, ih, List.forall_mem_cons]

/-- A block has one level more than each of those that are nested in it. -/
theorem levels_le_iff {block : Block} {n : Nat} :
    block.levels ≤ n ↔ ∀ entry ∈ block.children, entry.2.levels + 1 ≤ n := by
  cases block
  exact levelsIn_le_iff

theorem levels_mediaLast_le {block : Block} {n : Nat} (h : block.levels ≤ n) :
    block.mediaLast.levels ≤ n :=
  levels_le_iff.2 fun entry hentry =>
    levels_le_iff.1 h entry (block.children_mediaLast_perm.mem_iff.1 hentry)

theorem levels_addDeclaration_le {block : Block} {n : Nat} (h : block.levels ≤ n)
    (declaration : Declaration) : (block.addDeclaration declaration).levels ≤ n := by
  have hchildren : (block.addDeclaration declaration).children = block.children := by
    cases declaration <;> rfl
  rw [levels_le_iff, hchildren]
  exact levels_le_iff.1 h

theorem levels_nestUnderEach_le {block child : Block} {n : Nat} (h : block.levels ≤ n)
    (hchild : child.levels + 1 ≤ n) (selectors : List String) :
    (block.nestUnderEach child selectors).block.levels ≤ n := by
  induction selectors generalizing block with
  | nil => exact h
  | cons selector rest ih =>
    refine ih (levels_le_iff.2 (List.forall_mem_append.2 ⟨levels_le_iff.1 h, ?_⟩))
    exact List.forall_mem_singleton.2 hchild

/-- Nesting a block keeps to a number of levels that leaves room for it. -/
theorem levels_nest_le {block child : Block} {n : Nat} (h : block.levels ≤ n)
    (hchild : child.levels + 1 ≤ n) (split : Bool) (selector : String) :
    (nest split selector child block).block.levels ≤ n := by
  rw [nest]
  split
  · exact h
  · exact levels_nestUnderEach_le h hchild _

/-! ### Open blocks -/

/-- Each open block has as many levels as are left where it is, with those around it counted. -/
def NestsWithin (limit : Nat) : Block → List (String × Block) → Prop
  | current, [] => current.levels ≤ limit
  | current, (_, outer) :: rest =>
    current.levels + (rest.length + 1) ≤ limit ∧ NestsWithin limit outer rest

theorem NestsWithin.levels_le {limit : Nat} {current : Block} {enclosing : List (String × Block)}
    (h : NestsWithin limit current enclosing) : current.levels + enclosing.length ≤ limit := by
  cases enclosing with
  | nil => exact h
  | cons level rest => exact h.1

/-- What is open around the innermost block does not depend on it. -/
theorem NestsWithin.replace {limit : Nat} {current other : Block}
    {enclosing : List (String × Block)} (h : NestsWithin limit current enclosing)
    (hother : other.levels + enclosing.length ≤ limit) : NestsWithin limit other enclosing := by
  cases enclosing with
  | nil => exact hother
  | cons level rest => exact ⟨hother, h.2⟩

/-- A block that is closed goes into the one around it. -/
theorem NestsWithin.close {limit : Nat} {current outer : Block} {selector name : String}
    {rest : List (String × Block)} (h : NestsWithin limit current ((name, outer) :: rest))
    (split : Bool) :
    NestsWithin limit (nest split selector current.mediaLast outer).block rest := by
  obtain ⟨hcurrent, houter⟩ := h
  have hlevels := houter.levels_le
  have hchild : current.mediaLast.levels ≤ limit - rest.length - 1 :=
    levels_mediaLast_le (by omega)
  have hnest : (nest split selector current.mediaLast outer).block.levels ≤ limit - rest.length :=
    levels_nest_le (by omega) (by omega) split selector
  exact houter.replace (by omega)

variable {split : Bool} {limit : UInt64}

/-- One token keeps the open blocks within the limit. -/
theorem NestsWithin.takes {assembly next : Assembly Block} {token : Token}
    (h : NestsWithin limit.toNat assembly.current assembly.enclosing)
    (htakes : Assembly.Takes (assembler split) limit assembly token next) :
    NestsWithin limit.toNat next.current next.enclosing := by
  have hlevels := h.levels_le
  cases htakes with
  | comment => exact h
  | declaration current enclosing renamings text =>
    refine h.replace ?_
    have hsame := levels_addDeclaration_le (Nat.le_refl current.levels) (Declaration.ofText text)
    exact Nat.le_trans (Nat.add_le_add_right hsame _) hlevels
  | opening current enclosing renamings selector hlimit =>
    exact ⟨by simpa [assembler, levels, levelsIn] using hlimit, h⟩
  | unmatched => exact h
  | closing => exact h.close split

theorem NestsWithin.foldlM {assembly next : Assembly Block} {tokens : List Token}
    (h : NestsWithin limit.toNat assembly.current assembly.enclosing)
    (hrun : tokens.foldlM (Assembly.take (assembler split) limit) assembly = .ok next) :
    NestsWithin limit.toNat next.current next.enclosing := by
  induction tokens generalizing assembly with
  | nil =>
    obtain rfl := Except.ok.inj hrun
    exact h
  | cons token rest ih =>
    obtain ⟨after, htakes, hrest⟩ := Assembly.exists_takes_of_foldlM hrun
    exact ih (h.takes htakes) hrest

theorem NestsWithin.collapse {n : Nat} {current : Block} {enclosing : List (String × Block)}
    (h : NestsWithin n current enclosing) :
    (Assembly.collapse (assembler split) current enclosing).levels ≤ n := by
  induction enclosing generalizing current with
  | nil => exact levels_mediaLast_le h
  | cons level rest ih => exact ih (h.close split)

theorem levels_assembled {tokens : List Token} {block : Block}
    (h : assembled (assembler split) limit tokens = .ok block) : block.levels ≤ limit.toNat := by
  rw [assembled] at h
  cases hrun : tokens.foldlM (Assembly.take (assembler split) limit)
      { current := (assembler split).empty } with
  | error error =>
    rw [hrun] at h
    cases h
  | ok assembly =>
    rw [hrun] at h
    obtain rfl := Except.ok.inj h
    have hstart : NestsWithin limit.toNat (assembler split).empty [] := Nat.zero_le _
    exact (hstart.foldlM hrun).collapse

end StyleTree.Block
