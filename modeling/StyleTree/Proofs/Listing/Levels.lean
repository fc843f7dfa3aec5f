import StyleTree.Proofs.Listing.Fold
import StyleTree.Proofs.Listing.Parts

namespace StyleTree

variable {P : Block → Prop} {Q : Part → Prop} {split : Bool}

theorem Listing.everywhere_of_branches {listing : Listing} (h : P (toBlock split listing))
    (hbranches : ∀ branch ∈ branches split listing, branch.2.Everywhere P) :
    (toBlock split listing).Everywhere P := by
  refine Block.everywhere_iff.2 ⟨h, Block.everywhereIn_iff.2 ?_⟩
  intro entry hentry
  obtain ⟨branch, hbranch, hsame⟩ := exists_branch_of_mem hentry
  exact hsame ▸ hbranches branch hbranch

mutual

theorem Item.everywhere_branches
    (hlevel : ∀ listing, (∀ part ∈ Listing.parts listing, Q part) →
      P (Listing.toBlock split listing)) :
    ∀ item : Item, (∀ part ∈ item.parts, Q part) →
      ∀ branch ∈ item.branches split, branch.2.Everywhere P
  | .comment _, _ => by simp [Item.branches]
  | .property _ _, _ => by simp [Item.branches]
  | .statement _, _ => by simp [Item.branches]
  | .rule name body, h => by
    rw [Item.parts, List.cons_append, List.forall_mem_cons, List.forall_mem_append] at h
    obtain ⟨-, hbody, -⟩ := h
    intro branch hbranch
    obtain ⟨selector, -, rfl⟩ := List.mem_map.1 hbranch
    exact Listing.everywhere_of_branches (hlevel body hbody)
      (Listing.everywhere_branches hlevel body hbody)

theorem Listing.everywhere_branches
    (hlevel : ∀ listing, (∀ part ∈ Listing.parts listing, Q part) →
      P (Listing.toBlock split listing)) :
    ∀ listing : List Item, (∀ part ∈ Listing.parts listing, Q part) →
      ∀ branch ∈ Listing.branches split listing, branch.2.Everywhere P
  | [], _ => by simp [Listing.branches]
  | item :: rest, h => by
    rw [Listing.parts, List.forall_mem_append] at h
    rw [Listing.branches, List.forall_mem_append]
    exact ⟨item.everywhere_branches hlevel h.1, Listing.everywhere_branches hlevel rest h.2⟩

end

/-- A condition holds at every level of the block of a listing, if it holds of the blocks of all
listings with parts like those of this one. -/
theorem Listing.everywhere_toBlock
    (hlevel : ∀ listing, (∀ part ∈ parts listing, Q part) → P (toBlock split listing))
    {listing : Listing} (h : ∀ part ∈ parts listing, Q part) :
    (toBlock split listing).Everywhere P :=
  everywhere_of_branches (hlevel listing h) (everywhere_branches hlevel listing h)

end StyleTree
