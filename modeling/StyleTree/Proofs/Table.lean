import StyleTree.Table

namespace StyleTree

namespace Table

variable {α : Type}

theorem not_mem_keys_cons {table : Table α} {key other : String} {value : α} :
    key ∉ keys ((other, value) :: table) ↔ key ≠ other ∧ key ∉ table.keys := by
  simp [keys]

theorem find?_eq_some_of_mem {table : Table α} (hnodup : table.keys.Nodup) {key : String}
    {value : α} (h : (key, value) ∈ table) : table.find? key = some value := by
  induction table with
  | nil => simp at h
  | cons entry rest ih =>
    obtain ⟨other, kept⟩ := entry
    obtain ⟨hnot, hrest⟩ := List.nodup_cons.1 hnodup
    rcases List.mem_cons.1 h with hfirst | hlater
    · obtain ⟨rfl, rfl⟩ := Prod.mk.inj hfirst
      rw [find?_cons, if_pos rfl]
    · have hkey : key ∈ keys rest := List.mem_map.2 ⟨_, hlater, rfl⟩
      have hne : key ≠ other := fun hsame => hnot (hsame ▸ hkey)
      rw [find?_cons, if_neg hne, ih hrest hlater]

/-- What is stored under a new key goes to the end. -/
theorem insert_append_of_not_mem {table : Table α} {key : String} (h : key ∉ table.keys)
    (value : α) (more : Table α) :
    insert key value (table ++ more) = table ++ insert key value more := by
  induction table with
  | nil => rfl
  | cons entry rest ih =>
    obtain ⟨other, kept⟩ := entry
    obtain ⟨hne, hrest⟩ := not_mem_keys_cons.1 h
    rw [List.cons_append, insert, if_neg (Ne.symm hne), ih hrest, List.cons_append]

/-- A pair under a key that is used once is stored behind the pairs before it. -/
theorem insert_of_nodup {table rest : Table α} {key : String} {value : α}
    (h : (keys (table ++ (key, value) :: rest)).Nodup) :
    insert key value table = table ++ [(key, value)] := by
  have hkey : key ∉ table.keys := by
    intro hmem
    rw [keys, List.map_append, List.nodup_append] at h
    exact h.2.2 key hmem key (by simp) rfl
  simpa [insert] using insert_append_of_not_mem hkey value []

theorem find?_append_of_not_mem {table : Table α} {key : String} (h : key ∉ table.keys)
    (more : Table α) : find? (table ++ more) key = find? more key := by
  induction table with
  | nil => rfl
  | cons entry rest ih =>
    obtain ⟨other, kept⟩ := entry
    obtain ⟨hne, hrest⟩ := not_mem_keys_cons.1 h
    rw [List.cons_append, find?_cons, if_neg hne, ih hrest]

theorem find?_eq_none_of_not_mem {table : Table α} {key : String} (h : key ∉ table.keys) :
    table.find? key = none := by
  simpa using find?_append_of_not_mem h []

theorem find?_map {keys : List String} (value : String → α) {key : String} (h : key ∈ keys) :
    find? (keys.map fun name => (name, value name)) key = some (value key) := by
  induction keys with
  | nil => simp at h
  | cons other rest ih =>
    rw [List.map_cons, find?_cons]
    by_cases hsame : key = other
    · rw [if_pos hsame, hsame]
    · rw [if_neg hsame, ih ((List.mem_cons.1 h).resolve_left hsame)]

/-- Storing under one key of a table changes the value of that key alone. -/
theorem insert_map {keys : List String} (hnodup : keys.Nodup) {key : String} (h : key ∈ keys)
    {value changed : String → α} (hother : ∀ name, name ≠ key → changed name = value name) :
    insert key (changed key) (keys.map fun name => (name, value name)) =
      keys.map fun name => (name, changed name) := by
  induction keys with
  | nil => simp at h
  | cons other rest ih =>
    obtain ⟨hnot, hrest⟩ := List.nodup_cons.1 hnodup
    rw [List.map_cons, List.map_cons, insert]
    by_cases hsame : other = key
    · subst hsame
      rw [if_pos rfl]
      congr 1
      apply List.map_congr_left
      intro name hname
      rw [hother name (fun heq => hnot (heq ▸ hname))]
    · rw [if_neg hsame, ih hrest ((List.mem_cons.1 h).resolve_left (Ne.symm hsame)),
        hother other hsame]

/-! ### Tables with the same keys -/

variable {β : Type}

/-- Two tables have the same keys in the same order, and their values are related. -/
inductive Related (R : α → β → Prop) : Table α → Table β → Prop where
  | nil : Related R [] []
  | cons {key : String} {value : α} {other : β} {table : Table α} {others : Table β}
    (h : R value other) (hrest : Related R table others) :
    Related R ((key, value) :: table) ((key, other) :: others)

/-- There is a related table if there is a related value for each value. -/
theorem exists_related_iff {R : α → β → Prop} {table : Table α} :
    (∃ others, Related R table others) ↔ ∀ entry ∈ table, ∃ other, R entry.2 other := by
  constructor
  · rintro ⟨others, h⟩
    induction h with
    | nil => simp
    | @cons _ _ other _ _ h _ ih => exact List.forall_mem_cons.2 ⟨⟨other, h⟩, ih⟩
  · intro h
    induction table with
    | nil => exact ⟨[], .nil⟩
    | cons entry rest ih =>
      obtain ⟨⟨other, hfirst⟩, hrest⟩ := List.forall_mem_cons.1 h
      obtain ⟨others, hothers⟩ := ih hrest
      exact ⟨(entry.1, other) :: others, .cons hfirst hothers⟩

theorem related_congr {R S : α → β → Prop} {table : Table α} {others : Table β}
    (h : ∀ entry ∈ table, ∀ other, R entry.2 other ↔ S entry.2 other) :
    Related R table others ↔ Related S table others := by
  induction table generalizing others with
  | nil => exact ⟨by rintro ⟨⟩; exact .nil, by rintro ⟨⟩; exact .nil⟩
  | cons entry rest ih =>
    obtain ⟨hfirst, hrest⟩ := List.forall_mem_cons.1 h
    constructor
    · rintro ⟨⟩
      rename_i hvalue htail
      exact .cons ((hfirst _).1 hvalue) ((ih hrest).1 htail)
    · rintro ⟨⟩
      rename_i hvalue htail
      exact .cons ((hfirst _).2 hvalue) ((ih hrest).2 htail)

/-- Reading all values of a table gives what each is read as, under the same keys. -/
theorem mapM_eq_some_iff {read : α → Option β} {table : Table α} {others : Table β} :
    (table.mapM fun (key, value) => do return (key, ← read value)) = some others ↔
      Related (fun value other => read value = some other) table others := by
  induction table generalizing others with
  | nil =>
    rw [List.mapM_nil]
    exact ⟨by rintro ⟨⟩; exact .nil, by rintro ⟨⟩; rfl⟩
  | cons entry rest ih =>
    obtain ⟨key, value⟩ := entry
    simp only [List.mapM_cons, Option.bind_eq_bind, Option.pure_def, Option.bind_eq_some_iff]
    constructor
    · rintro ⟨pair, ⟨other, hread, hpair⟩, tail, htail, hothers⟩
      obtain rfl := Option.some.inj hpair
      obtain rfl := Option.some.inj hothers
      exact .cons hread (ih.1 htail)
    · rintro ⟨⟩
      rename_i other tail hread htail
      exact ⟨(key, other), ⟨other, hread, rfl⟩, tail, ih.2 htail, rfl⟩

end Table

end StyleTree
