import StyleTree.Proofs.Block.RoundTrip
import StyleTree.Proofs.Listing.Levels
import StyleTree.Proofs.Selector.Counting

namespace StyleTree

/-! ### Keys -/

namespace Selector

variable {split : Bool}

/-- Readable keys are those that count selectors with which they are read. -/
theorem readable_iff_counted {keys : List String} :
    Readable split keys ↔
      Counted (fun selector spaces => Css.IsHeading (padded selector spaces) selector ∧
        (split = true → pieces selector = [selector])) keys := by
  have hafter : ∀ earlier key, ReadableAfter split earlier key ↔
      CountedAfter (fun selector spaces => Css.IsHeading (padded selector spaces) selector ∧
        (split = true → pieces selector = [selector])) earlier key := by
    intro earlier key
    constructor
    · rintro ⟨selector, hheading, hpieces, spaces, rfl, hbefore⟩
      exact ⟨selector, spaces, ⟨hheading, hpieces⟩, rfl, hbefore⟩
    · rintro ⟨selector, spaces, ⟨hheading, hpieces⟩, rfl, hbefore⟩
      exact ⟨selector, hheading, hpieces, spaces, rfl, hbefore⟩
  simp only [Readable, Counted, hafter]

theorem readable_numbered {α : Type} {table : Table α}
    (h : ∀ key ∈ table.keys, ∀ spaces, Css.IsHeading (padded key spaces) key) :
    Readable false (numbered [] table).keys := by
  refine readable_iff_counted.2 (counted_numbered ?_ ?_)
  · intro key hkey
    exact (h key hkey 0).trimmed
  · intro key hkey spaces
    exact ⟨h key hkey spaces, by simp⟩

end Selector

namespace Block

theorem readable_selectors_mediaLast {block : Block} {split : Bool}
    (h : Selector.Readable split block.selectors) :
    Selector.Readable split block.mediaLast.selectors := by
  rw [Selector.readable_iff_counted] at h ⊢
  exact counted_selectors_mediaLast h

end Block

/-! ### Listings -/

/-- A part of a listing that is read as intended on a line of its own. Comments are not written
with keyed blocks, and the keys of blocks may have any number of spaces. -/
def Part.Readable : Part → Prop
  | .comment _ => True
  | .declaration (.property name value) => Css.IsProperty name value
  | .declaration (.statement text) => Css.IsStatement text
  | .opening name => ∀ spaces, Css.IsHeading (Selector.padded name spaces) name
  | .closing => True

namespace Listing

theorem readable_toBlock (listing : Listing) (h : ∀ part ∈ parts listing, part.Readable) :
    Block.Readable false (toBlock false listing) := by
  refine ⟨?_, ?_, ?_, ?_, Block.media_mediaLast _⟩
  · intro entry hentry
    exact (Block.of_mem_grouped hentry).1
  · intro entry hentry value hvalue
    have hitem := property_mem_of_mem_pairs ((Block.of_mem_grouped hentry).2 value hvalue)
    exact h _ (mem_parts hitem (List.mem_singleton_self _))
  · intro text htext
    have hitem := statement_mem_of_mem_statements htext
    exact h _ (mem_parts hitem (List.mem_singleton_self _))
  · refine Block.readable_selectors_mediaLast (Selector.readable_numbered ?_)
    intro key hkey
    obtain ⟨name, body, hitem, hname⟩ := exists_rule_of_mem_keys hkey
    obtain rfl : key = name := List.mem_singleton.1 hname
    exact h _ (mem_parts hitem (List.mem_cons_self ..))

/-- The keyed block of a readable listing is readable everywhere. -/
theorem everywhere_readable_toBlock {listing : Listing}
    (h : ∀ part ∈ parts listing, part.Readable) :
    (toBlock false listing).Everywhere (Block.Readable false) :=
  everywhere_toBlock readable_toBlock h

end Listing

end StyleTree
