import Mathlib.Data.List.Induction
import StyleTree.Proofs.Block.Tree
import StyleTree.Proofs.Selector.Keys

namespace StyleTree

variable {P : String → Nat → Prop}

namespace Selector

/-- A key that comes after some others consists of a selector and spaces for which `P` holds, and
with one space less it is taken. -/
def CountedAfter (P : String → Nat → Prop) (earlier : List String) (key : String) : Prop :=
  ∃ selector spaces, P selector spaces ∧ key = padded selector spaces ∧
    (0 < spaces → padded selector (spaces - 1) ∈ earlier)

/-- Each key of a list is counted after the keys before it. -/
def Counted (P : String → Nat → Prop) (keys : List String) : Prop :=
  ∀ i, ∀ h : i < keys.length, CountedAfter P (keys.take i) keys[i]

theorem CountedAfter.mono {earlier others : List String} {key : String}
    (h : CountedAfter P earlier key) (hsubset : earlier ⊆ others) : CountedAfter P others key := by
  obtain ⟨selector, spaces, hselector, hkey, hbefore⟩ := h
  exact ⟨selector, spaces, hselector, hkey, fun hpos => hsubset (hbefore hpos)⟩

theorem counted_nil : Counted P [] :=
  fun i hi => absurd hi (Nat.not_lt_zero i)

theorem counted_concat {keys : List String} {key : String} :
    Counted P (keys ++ [key]) ↔ Counted P keys ∧ CountedAfter P keys key := by
  constructor
  · intro h
    constructor
    · intro i hi
      have hkey := h i (by rw [List.length_append]; omega)
      rwa [List.take_append_of_le_length (Nat.le_of_lt hi), List.getElem_append_left hi] at hkey
    · simpa using h keys.length (by simp)
  · rintro ⟨hkeys, hlast⟩ i hi
    by_cases hfront : i < keys.length
    · rw [List.take_append_of_le_length (Nat.le_of_lt hfront), List.getElem_append_left hfront]
      exact hkeys i hfront
    · obtain rfl : i = keys.length := by
        rw [List.length_append, List.length_singleton] at hi
        omega
      simpa using hlast

theorem Counted.append {keys others : List String} (h : Counted P keys)
    (hothers : Counted P others) : Counted P (keys ++ others) := by
  induction others using List.reverseRecOn with
  | nil => rwa [List.append_nil]
  | append_singleton others key ih =>
    obtain ⟨hfront, hlast⟩ := counted_concat.1 hothers
    rw [← List.append_assoc]
    exact counted_concat.2 ⟨ih hfront, hlast.mono (List.subset_append_right _ _)⟩

/-- Keys may be left out, if those with the same selector are treated alike. -/
theorem Counted.filter {keys : List String} (h : Counted P keys) {p : String → Bool}
    (hp : ∀ selector spaces, p (padded selector spaces) = p selector) :
    Counted P (keys.filter p) := by
  induction keys using List.reverseRecOn with
  | nil => exact h
  | append_singleton keys key ih =>
    obtain ⟨hfront, selector, spaces, hselector, rfl, hbefore⟩ := counted_concat.1 h
    rw [List.filter_append]
    by_cases hkey : p (padded selector spaces) = true
    · rw [List.filter_cons_of_pos hkey, List.filter_nil]
      refine counted_concat.2 ⟨ih hfront, selector, spaces, hselector, rfl, ?_⟩
      intro hpos
      refine List.mem_filter.2 ⟨hbefore hpos, ?_⟩
      rwa [hp, ← hp selector spaces]
    · rw [List.filter_cons_of_neg hkey, List.filter_nil, List.append_nil]
      exact ih hfront

/-- Numbered keys count, if `P` holds of all that can become of their selectors. -/
theorem counted_numbered {α : Type} {table : Table α}
    (htrimmed : ∀ key ∈ table.keys, Text.Trimmed key.toList)
    (h : ∀ key ∈ table.keys, ∀ spaces, P key spaces) : Counted P (numbered [] table).keys := by
  induction table using List.reverseRecOn with
  | nil => exact counted_nil
  | append_singleton table entry ih =>
    obtain ⟨selector, value⟩ := entry
    have hkeys : Table.keys (table ++ [(selector, value)]) = Table.keys table ++ [selector] := by
      simp [Table.keys]
    have hnumbered : (numbered [] (table ++ [(selector, value)])).keys =
        (numbered [] table).keys ++ [padded selector ((Table.keys table).count selector)] := by
      simp [numbered_append, numbered, Table.keys]
    rw [hkeys] at h htrimmed
    obtain ⟨hfront, hlast⟩ := List.forall_mem_append.1 h
    obtain ⟨hothers, hselector⟩ := List.forall_mem_append.1 htrimmed
    rw [List.forall_mem_singleton] at hlast hselector
    rw [hnumbered]
    refine counted_concat.2 ⟨ih hothers hfront, selector, _, hlast _, rfl, ?_⟩
    intro hpos
    -- There are enough entries for the selector that one space less has been used too.
    refine (padded_mem_keys_numbered hothers hselector _).2 ⟨Nat.zero_le _, ?_⟩
    rw [List.nil_append]
    omega

/-- Spaces at the end of a selector do not decide whether it is for certain media. -/
theorem isMedia_padded (selector : String) (spaces : Nat) :
    isMedia (padded selector spaces) = isMedia selector := by
  by_cases hlength : 6 ≤ selector.toList.length
  · rw [isMedia, toList_padded, List.take_append_of_le_length hlength, isMedia]
  · -- A shorter selector is not, and its key has a space where the word would go on.
    have hshort : isMedia selector = false := by
      rw [isMedia, beq_eq_false_iff_ne]
      intro hword
      have hsame := congrArg List.length hword
      simp only [List.length_map, List.length_take, List.length_cons, List.length_nil] at hsame
      omega
    cases spaces with
    | zero => rw [padded_zero]
    | succ spaces =>
      obtain ⟨left, hleft⟩ : ∃ left, 6 - selector.toList.length = left + 1 :=
        Nat.exists_eq_succ_of_ne_zero (by omega)
      have hspace : ' ' ∈ ((padded selector (spaces + 1)).toList.take 6).map Char.toLower := by
        rw [toList_padded, List.take_append, hleft, List.replicate_succ, List.take_succ_cons]
        exact List.mem_map.2 ⟨' ', by simp, rfl⟩
      rw [hshort, isMedia, beq_eq_false_iff_ne]
      intro hword
      rw [hword] at hspace
      exact absurd hspace (by decide)

end Selector

namespace Block

/-- Sorting puts no key before one that it needs. -/
theorem counted_selectors_mediaLast {block : Block} (h : Selector.Counted P block.selectors) :
    Selector.Counted P block.mediaLast.selectors := by
  rw [selectors_mediaLast]
  refine (h.filter ?_).append (h.filter Selector.isMedia_padded)
  intro selector spaces
  rw [Selector.isMedia_padded]

end Block

end StyleTree
