import Mathlib.Data.List.Pairwise
import StyleTree.Block

namespace StyleTree.Block

mutual

/-- How many levels of nested blocks a block has. -/
def levels : Block → Nat
  | ⟨children, _, _⟩ => levelsIn children

/-- How many levels nested blocks make, their own included. -/
def levelsIn : List (String × Block) → Nat
  | [] => 0
  | (_, child) :: rest => max (child.levels + 1) (levelsIn rest)

end

mutual

/-- A condition holds of a block and of all blocks that are nested in it. -/
def Everywhere (P : Block → Prop) : Block → Prop
  | ⟨children, properties, statements⟩ =>
    P ⟨children, properties, statements⟩ ∧ EverywhereIn P children

/-- A condition holds of nested blocks and of all blocks that are nested in them. -/
def EverywhereIn (P : Block → Prop) : List (String × Block) → Prop
  | [] => True
  | (_, child) :: rest => child.Everywhere P ∧ EverywhereIn P rest

end

mutual

/-- A condition that can be decided of one level can be decided of all levels. -/
def decEverywhere {P : Block → Prop} [DecidablePred P] : (block : Block) →
    Decidable (block.Everywhere P)
  | ⟨children, properties, statements⟩ =>
    have := decEverywhereIn (P := P) children
    inferInstanceAs (Decidable (P ⟨children, properties, statements⟩ ∧ EverywhereIn P children))

/-- The same for nested blocks. -/
def decEverywhereIn {P : Block → Prop} [DecidablePred P] : (children : List (String × Block)) →
    Decidable (EverywhereIn P children)
  | [] => isTrue trivial
  | (_, child) :: rest =>
    have := decEverywhere (P := P) child
    have := decEverywhereIn (P := P) rest
    inferInstanceAs (Decidable (child.Everywhere P ∧ EverywhereIn P rest))

end

instance {P : Block → Prop} [DecidablePred P] : DecidablePred (Everywhere P) :=
  decEverywhere

theorem everywhere_iff {P : Block → Prop} {block : Block} :
    block.Everywhere P ↔ P block ∧ EverywhereIn P block.children := by
  cases block
  rfl

theorem everywhereIn_iff {P : Block → Prop} {children : List (String × Block)} :
    EverywhereIn P children ↔ ∀ entry ∈ children, entry.2.Everywhere P := by
  induction children with
  | nil => simp [EverywhereIn]
  | cons entry rest ih => simp [EverywhereIn, ih]

/-- At the level of a block itself, each selector and each name is used once. -/
def HasDistinctKeys (block : Block) : Prop :=
  block.selectors.Nodup ∧ (Table.keys block.properties).Nodup

/-- Every key is used once at its level. -/
def Keyed (block : Block) : Prop :=
  block.Everywhere HasDistinctKeys

instance : DecidablePred HasDistinctKeys := fun block =>
  inferInstanceAs (Decidable (block.selectors.Nodup ∧ (Table.keys block.properties).Nodup))

instance : DecidablePred Keyed := fun block =>
  inferInstanceAs (Decidable (block.Everywhere HasDistinctKeys))

/-! ### The order of nested blocks -/

theorem filter_not_append_filter {α : Type} (p : α → Bool) {list : List α}
    (h : list.Pairwise fun earlier later => p earlier = true → p later = true) :
    list.filter (fun a => !p a) ++ list.filter p = list := by
  induction h with
  | nil => rfl
  | @cons a rest hrest _ ih =>
    by_cases ha : p a = true
    · -- All of the rest satisfies `p` too, so that nothing is left of the first part.
      have hall : ∀ b ∈ rest, p b = true := fun b hb => hrest b hb ha
      have hnone : (a :: rest).filter (fun a => !p a) = [] := by
        rw [List.filter_eq_nil_iff]
        intro b hb
        rcases List.mem_cons.1 hb with rfl | hmem
        · simp [ha]
        · simp [hall b hmem]
      have hsome : (a :: rest).filter p = a :: rest := by
        rw [List.filter_eq_self]
        intro b hb
        rcases List.mem_cons.1 hb with rfl | hmem
        · exact ha
        · exact hall b hmem
      rw [hnone, hsome, List.nil_append]
    · rw [List.filter_cons_of_pos (by simpa using ha), List.filter_cons_of_neg ha,
        List.cons_append, ih]

/-- A list with one kind of items at its end is determined by the items of each kind in order. -/
theorem eq_of_filter_eq {α : Type} {p : α → Bool} {list other : List α}
    (hlist : list.Pairwise fun earlier later => p earlier = true → p later = true)
    (hother : other.Pairwise fun earlier later => p earlier = true → p later = true)
    (hfalse : list.filter (fun a => !p a) = other.filter fun a => !p a)
    (htrue : list.filter p = other.filter p) : list = other := by
  rw [← filter_not_append_filter p hlist, hfalse, htrue, filter_not_append_filter p hother]

/-- Nothing moves where no block for certain media comes before another block. -/
theorem mediaLast_eq_self {block : Block}
    (h : block.selectors.Pairwise fun earlier later =>
      Selector.isMedia earlier = true → Selector.isMedia later = true) :
    block.mediaLast = block := by
  have hchildren := filter_not_append_filter
    (fun entry : String × Block => Selector.isMedia entry.1) (List.pairwise_map.1 h)
  obtain ⟨children, properties, statements⟩ := block
  simp only [mediaLast]
  exact congrArg (fun sorted => Block.mk sorted properties statements) hchildren

theorem children_mediaLast_perm (block : Block) :
    block.mediaLast.children.Perm block.children := by
  have hsplit := List.filter_append_perm (fun entry : String × Block =>
    !Selector.isMedia entry.1) block.children
  simpa [mediaLast] using hsplit

theorem selectors_mediaLast_perm (block : Block) :
    block.mediaLast.selectors.Perm block.selectors :=
  block.children_mediaLast_perm.map Prod.fst

theorem selectors_mediaLast (block : Block) :
    block.mediaLast.selectors =
      block.selectors.filter (fun key => !Selector.isMedia key) ++
        block.selectors.filter Selector.isMedia := by
  simp only [mediaLast, selectors, Table.keys, List.map_append, List.filter_map]
  rfl

/-- Once they are sorted, no other block comes after one for certain media. -/
theorem media_mediaLast (block : Block) :
    block.mediaLast.selectors.Pairwise fun earlier later =>
      Selector.isMedia earlier = true → Selector.isMedia later = true := by
  rw [selectors_mediaLast, List.pairwise_append]
  have hplain : ∀ key ∈ block.selectors.filter (fun key => !Selector.isMedia key),
      Selector.isMedia key = false := by
    intro key hkey
    simpa using (List.mem_filter.1 hkey).2
  have hmedia : ∀ key ∈ block.selectors.filter Selector.isMedia, Selector.isMedia key = true :=
    fun key hkey => (List.mem_filter.1 hkey).2
  refine ⟨List.pairwise_of_forall_mem_list fun earlier hearlier later _ hfirst => ?_,
    List.pairwise_of_forall_mem_list fun earlier _ later hlater _ => hmedia later hlater,
    fun earlier _ later hlater _ => hmedia later hlater⟩
  rw [hplain earlier hearlier] at hfirst
  exact absurd hfirst Bool.false_ne_true

/-- Nested blocks after those for certain media were moved to the end, with no other change in the
order of either kind. -/
structure IsStableMove (before after : Table Block) : Prop where
  /-- No other block comes after one for certain media. -/
  last : after.keys.Pairwise fun earlier later =>
    Selector.isMedia earlier = true → Selector.isMedia later = true
  /-- The other blocks are as they were. -/
  plain : after.filter (fun entry => !Selector.isMedia entry.1) =
    before.filter fun entry => !Selector.isMedia entry.1
  /-- The blocks for certain media are as they were. -/
  media : after.filter (fun entry => Selector.isMedia entry.1) =
    before.filter fun entry => Selector.isMedia entry.1

theorem isStableMove_mediaLast (block : Block) :
    IsStableMove block.children block.mediaLast.children where
  last := block.media_mediaLast
  plain := by simp [mediaLast, List.filter_append, List.filter_filter]
  media := by simp [mediaLast, List.filter_append, List.filter_filter]

/-- There is one such move only, and sorting makes it. -/
theorem children_mediaLast_eq_iff {block : Block} {entries : Table Block} :
    block.mediaLast.children = entries ↔ IsStableMove block.children entries := by
  have hsorted := block.isStableMove_mediaLast
  refine ⟨fun h => h ▸ hsorted, fun h => ?_⟩
  exact eq_of_filter_eq (List.pairwise_map.1 hsorted.last) (List.pairwise_map.1 h.last)
    (hsorted.plain.trans h.plain.symm) (hsorted.media.trans h.media.symm)

end StyleTree.Block
