import StyleTree.Block
import StyleTree.Proofs.Text.Trim
import StyleTree.Table

namespace StyleTree.Selector

/-- The key made of a selector and of spaces at its end. -/
def padded (selector : String) (spaces : Nat) : String :=
  String.ofList (selector.toList ++ List.replicate spaces ' ')

@[simp]
theorem toList_padded (selector : String) (spaces : Nat) :
    (padded selector spaces).toList = selector.toList ++ List.replicate spaces ' ' :=
  String.toList_ofList

@[simp]
theorem padded_zero (selector : String) : padded selector 0 = selector :=
  String.toList_injective (by simp)

theorem padded_push (selector : String) (spaces : Nat) :
    padded (selector.push ' ') spaces = padded selector (spaces + 1) :=
  String.toList_injective (by simp [List.replicate_succ])

/-- A trimmed selector and the number of spaces after it can be read off the key. -/
theorem padded_inj {selector other : String} (hselector : Text.Trimmed selector.toList)
    (hother : Text.Trimmed other.toList) {spaces blanks : Nat} :
    padded selector spaces = padded other blanks ↔ selector = other ∧ spaces = blanks := by
  have hblank : ∀ n, ∀ c ∈ List.replicate n ' ', Text.isBlank c = true := by
    intro n c hc
    rw [List.eq_of_mem_replicate hc]
    decide
  constructor
  · intro h
    have hlists := congrArg String.toList h
    rw [toList_padded, toList_padded] at hlists
    obtain ⟨hsame, hspaces⟩ := hselector.append_blanks_inj hother (hblank _) (hblank _) hlists
    exact ⟨String.toList_injective hsame, by simpa using congrArg List.length hspaces⟩
  · rintro ⟨rfl, rfl⟩
    rfl

/-- The search for a free key stops at the first one. -/
theorem freshKey_eq_padded {taken : List String} {key : String} {spaces : Nat}
    (htaken : ∀ n < spaces, padded key n ∈ taken) (hfree : padded key spaces ∉ taken) :
    freshKey taken key = padded key spaces := by
  induction spaces generalizing taken key with
  | zero =>
    rw [padded_zero] at hfree ⊢
    rw [freshKey, if_neg hfree]
  | succ spaces ih =>
    have hkey : key ∈ taken := by simpa using htaken 0 (Nat.zero_lt_succ spaces)
    rw [freshKey, if_pos hkey, ← padded_push]
    apply ih
    · intro n hn
      rw [padded_push]
      refine (List.mem_erase_of_ne ?_).2 (htaken (n + 1) (by omega))
      -- The longer candidates differ from the one that is crossed off.
      intro hsame
      have hlength := congrArg (List.length ∘ String.toList) hsame
      simp at hlength
    · rw [padded_push]
      exact fun hmem => hfree (List.mem_of_mem_erase hmem)

variable {α : Type}

/-- The table with each key padded by the number of equal ones before it, `earlier` and in the
table. -/
def numbered : List String → Table α → Table α
  | _, [] => []
  | earlier, (selector, value) :: rest =>
    (padded selector (earlier.count selector), value) :: numbered (earlier ++ [selector]) rest

theorem numbered_append (earlier : List String) (table more : Table α) :
    numbered earlier (table ++ more) =
      numbered earlier table ++ numbered (earlier ++ table.keys) more := by
  induction table generalizing earlier with
  | nil => simp [numbered, Table.keys]
  | cons entry rest ih =>
    obtain ⟨selector, value⟩ := entry
    simp [numbered, ih, Table.keys]

theorem values_numbered (earlier : List String) (table : Table α) :
    (numbered earlier table).map Prod.snd = table.map Prod.snd := by
  induction table generalizing earlier with
  | nil => rfl
  | cons entry rest ih => rw [numbered, List.map_cons, List.map_cons, ih]

/-- A selector has been padded with as many numbers of spaces as there are entries for it. -/
theorem padded_mem_keys_numbered {earlier : List String} {table : Table α}
    (htable : ∀ other ∈ table.keys, Text.Trimmed other.toList) {selector : String}
    (hselector : Text.Trimmed selector.toList) (spaces : Nat) :
    padded selector spaces ∈ (numbered earlier table).keys ↔
      earlier.count selector ≤ spaces ∧ spaces < (earlier ++ table.keys).count selector := by
  induction table generalizing earlier with
  | nil =>
    simp only [numbered, Table.keys, List.map_nil, List.not_mem_nil, List.append_nil, false_iff]
    omega
  | cons entry rest ih =>
    obtain ⟨other, value⟩ := entry
    have hother : Text.Trimmed other.toList := htable other (List.mem_cons_self ..)
    have hrest : ∀ key ∈ Table.keys rest, Text.Trimmed key.toList :=
      fun key hkey => htable key (List.mem_cons_of_mem _ hkey)
    have hsplit : padded selector spaces ∈ (numbered earlier ((other, value) :: rest)).keys ↔
        (selector = other ∧ spaces = earlier.count other) ∨
          padded selector spaces ∈ (numbered (earlier ++ [other]) rest).keys := by
      rw [← padded_inj hselector hother]
      exact List.mem_cons
    have hcount : (earlier ++ Table.keys ((other, value) :: rest)).count selector =
        (earlier ++ [other] ++ Table.keys rest).count selector := by
      rw [List.append_assoc]
      rfl
    rw [hsplit, ih hrest, hcount]
    have hmore : (earlier ++ [other]).count selector ≤
        (earlier ++ [other] ++ Table.keys rest).count selector :=
      (List.sublist_append_left _ _).count_le selector
    -- The first entry uses up one number for its own selector and none for others.
    by_cases hsame : selector = other
    · subst hsame
      rw [List.count_append, List.count_singleton_self] at hmore ⊢
      simp only [true_and]
      omega
    · have hnone : [other].count selector = 0 := List.count_eq_zero.2 (by simpa using hsame)
      have hone : (earlier ++ [other]).count selector = earlier.count selector := by
        rw [List.count_append, hnone, Nat.add_zero]
      rw [hone]
      simp only [hsame, false_and, false_or]

/-- Looking for a free key for one entry more is counting the entries there are for it. -/
theorem freshKey_numbered {table : Table α}
    (htable : ∀ other ∈ table.keys, Text.Trimmed other.toList) {selector : String}
    (hselector : Text.Trimmed selector.toList) :
    freshKey (numbered [] table).keys selector = padded selector (table.keys.count selector) := by
  apply freshKey_eq_padded
  · intro n hn
    exact (padded_mem_keys_numbered htable hselector n).2 ⟨Nat.zero_le n, hn⟩
  · intro hmem
    exact absurd ((padded_mem_keys_numbered htable hselector _).1 hmem).2 (Nat.lt_irrefl _)

theorem nodup_keys_numbered {earlier : List String} {table : Table α}
    (htable : ∀ other ∈ table.keys, Text.Trimmed other.toList) :
    (numbered earlier table).keys.Nodup := by
  induction table generalizing earlier with
  | nil => exact List.nodup_nil
  | cons entry rest ih =>
    obtain ⟨selector, value⟩ := entry
    have hselector : Text.Trimmed selector.toList := htable selector (List.mem_cons_self ..)
    have hrest : ∀ key ∈ Table.keys rest, Text.Trimmed key.toList :=
      fun key hkey => htable key (List.mem_cons_of_mem _ hkey)
    refine List.nodup_cons.2 ⟨?_, ih hrest⟩
    intro hmem
    have hcount := ((padded_mem_keys_numbered hrest hselector _).1 hmem).1
    rw [List.count_append, List.count_singleton_self] at hcount
    omega

end StyleTree.Selector
