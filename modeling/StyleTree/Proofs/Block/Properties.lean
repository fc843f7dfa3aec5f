import Mathlib.Data.List.Induction
import StyleTree.Block
import StyleTree.Proofs.Table

namespace StyleTree

namespace PropertyValue

/-- What a property with some values is declared as. -/
def ofValues : List String → PropertyValue
  | [value] => .once value
  | values => .repeated values

/-- Whether declarations can lead to the value: a property that was declared several times has at
least two values. -/
def Declarable : PropertyValue → Prop
  | .once _ => True
  | .repeated values => 2 ≤ values.length

instance : DecidablePred Declarable
  | .once _ => isTrue trivial
  | .repeated values => inferInstanceAs (Decidable (2 ≤ values.length))

theorem ofValues_concat {values : List String} (h : values ≠ []) (added : String) :
    ofValues (values ++ [added]) = (ofValues values).push added := by
  obtain _ | ⟨first, _ | ⟨second, rest⟩⟩ := values
  · exact absurd rfl h
  · rfl
  · rfl

theorem Declarable.ofValues_values {value : PropertyValue} (h : value.Declarable) :
    ofValues value.values = value := by
  cases value with
  | once value => rfl
  | repeated values =>
    obtain _ | ⟨first, _ | ⟨second, rest⟩⟩ := values
    · simp [Declarable] at h
    · simp [Declarable] at h
    · rfl

theorem Declarable.values_ne_nil {value : PropertyValue} (h : value.Declarable) :
    value.values ≠ [] := by
  cases value with
  | once value => exact List.cons_ne_nil value []
  | repeated values =>
    rintro rfl
    simp [Declarable] at h

theorem declarable_ofValues {values : List String} (h : values ≠ []) :
    (ofValues values).Declarable := by
  obtain _ | ⟨first, _ | ⟨second, rest⟩⟩ := values
  · exact absurd rfl h
  · trivial
  · exact Nat.le_add_left 2 rest.length

theorem values_ofValues (values : List String) :
    (ofValues values).values = values := by
  obtain _ | ⟨first, _ | ⟨second, rest⟩⟩ := values <;> rfl

end PropertyValue

namespace Block

/-- A name that is new goes to the end of the properties. -/
theorem addProperty_of_not_mem {block : Block} {name : String}
    (h : name ∉ Table.keys block.properties) (value : String) :
    block.addProperty name value =
      { block with properties := block.properties ++ [(name, .once value)] } := by
  have hinsert := Table.insert_append_of_not_mem h (.once value) []
  rw [List.append_nil] at hinsert
  rw [addProperty, property?, Table.find?_eq_none_of_not_mem h, setProperty, hinsert, Table.insert]

/-- The property at the end takes a further value. -/
theorem addProperty_append {block : Block} {name : String} {table : Table PropertyValue}
    (h : name ∉ table.keys) (declared : PropertyValue) (value : String) :
    { block with properties := table ++ [(name, declared)] }.addProperty name value =
      { block with properties := table ++ [(name, declared.push value)] } := by
  rw [addProperty, property?, Table.find?_append_of_not_mem h, setProperty]
  simp [Table.find?_cons, Table.insert_append_of_not_mem h, Table.insert]

/-- All values of a property whose name is new go under that name. -/
theorem foldl_addProperty {block : Block} {name : String}
    (h : name ∉ Table.keys block.properties) {values : List String} (hvalues : values ≠ []) :
    values.foldl (fun block value => block.addProperty name value) block =
      { block with
        properties := block.properties ++ [(name, PropertyValue.ofValues values)] } := by
  induction values using List.reverseRecOn with
  | nil => exact absurd rfl hvalues
  | append_singleton values last ih =>
    rw [List.foldl_append, List.foldl_cons, List.foldl_nil]
    by_cases hnil : values = []
    · subst hnil
      exact addProperty_of_not_mem h last
    · rw [ih hnil, addProperty_append h, PropertyValue.ofValues_concat hnil]

/-! ### Grouping -/

/-- The values that are declared for a name, in order. -/
def valuesOf (name : String) (pairs : List (String × String)) : List String :=
  (pairs.filter (·.1 == name)).map Prod.snd

/-- Declared names with their values, grouped by name in the order of the first declarations. -/
def grouped (pairs : List (String × String)) : List (String × PropertyValue) :=
  (pairs.map Prod.fst).eraseDups.map fun name => (name, .ofValues (valuesOf name pairs))

theorem valuesOf_concat (name other value : String) (pairs : List (String × String)) :
    valuesOf name (pairs ++ [(other, value)]) =
      if other = name then valuesOf name pairs ++ [value] else valuesOf name pairs := by
  by_cases h : other = name <;> simp [valuesOf, h]

theorem valuesOf_ne_nil {name : String} {pairs : List (String × String)}
    (h : name ∈ pairs.map Prod.fst) : valuesOf name pairs ≠ [] := by
  obtain ⟨⟨other, value⟩, hmem, rfl⟩ := List.mem_map.1 h
  intro hnil
  have hvalue : value ∈ valuesOf other pairs :=
    List.mem_map.2 ⟨(other, value), List.mem_filter.2 ⟨hmem, by simp⟩, rfl⟩
  simp [hnil] at hvalue

theorem valuesOf_of_not_mem {name : String} {pairs : List (String × String)}
    (h : name ∉ pairs.map Prod.fst) : valuesOf name pairs = [] := by
  rw [valuesOf, List.map_eq_nil_iff, List.filter_eq_nil_iff]
  intro pair hpair hname
  exact h (List.mem_map.2 ⟨pair, hpair, by simpa using hname⟩)

theorem nodup_eraseDups (names : List String) : names.eraseDups.Nodup := by
  induction hlength : names.length using Nat.strongRecOn generalizing names with
  | ind n ih =>
    cases names with
    | nil => exact List.nodup_nil
    | cons name rest =>
      rw [List.eraseDups_cons]
      have hlt : (rest.filter fun other => !other == name).length < n := by
        rw [← hlength, List.length_cons]
        exact Nat.lt_succ_of_le (List.length_filter_le _ rest)
      refine List.nodup_cons.2 ⟨?_, ih _ hlt _ rfl⟩
      simp [List.mem_eraseDups]

theorem keys_grouped (pairs : List (String × String)) :
    Table.keys (grouped pairs) = (pairs.map Prod.fst).eraseDups := by
  rw [Table.keys, grouped, List.map_map]
  exact List.map_id _

/-- A block whose properties are grouped takes in one declaration more as if it had been grouped
with the others. -/
theorem grouped_concat (block : Block) (pairs : List (String × String)) (name value : String) :
    { block with properties := grouped pairs }.addProperty name value =
      { block with properties := grouped (pairs ++ [(name, value)]) } := by
  have hother : ∀ other, other ≠ name →
      PropertyValue.ofValues (valuesOf other (pairs ++ [(name, value)])) =
        .ofValues (valuesOf other pairs) := by
    intro other hother
    rw [valuesOf_concat, if_neg (Ne.symm hother)]
  have hnames : ((pairs ++ [(name, value)]).map Prod.fst).eraseDups =
      (pairs.map Prod.fst).eraseDups ++ if name ∈ pairs.map Prod.fst then [] else [name] := by
    rw [List.map_append, List.eraseDups_append]
    by_cases hmem : name ∈ pairs.map Prod.fst <;>
      simp [List.removeAll, List.eraseDups_cons, hmem]
  by_cases hmem : name ∈ pairs.map Prod.fst
  · -- The name keeps its place, and its values change.
    have hfirst := List.mem_eraseDups.2 hmem
    have hchanged : PropertyValue.ofValues (valuesOf name (pairs ++ [(name, value)])) =
        (PropertyValue.ofValues (valuesOf name pairs)).push value := by
      rw [valuesOf_concat, if_pos rfl, PropertyValue.ofValues_concat (valuesOf_ne_nil hmem)]
    rw [addProperty, property?, setProperty, grouped, Table.find?_map _ hfirst]
    simp only
    rw [← hchanged, Table.insert_map (nodup_eraseDups _) hfirst hother, grouped, hnames,
      if_pos hmem, List.append_nil]
  · -- The name is the last one, and its only value is the new one.
    have hnew : name ∉ Table.keys (grouped pairs) := by
      rw [keys_grouped, List.mem_eraseDups]
      exact hmem
    have hsame : (pairs.map Prod.fst).eraseDups.map (fun other =>
          (other, PropertyValue.ofValues (valuesOf other (pairs ++ [(name, value)])))) =
        grouped pairs := by
      apply List.map_congr_left
      intro other hmember
      rw [hother other (fun heq => hmem (heq ▸ List.mem_eraseDups.1 hmember))]
    have hlast : grouped (pairs ++ [(name, value)]) = grouped pairs ++ [(name, .once value)] := by
      rw [grouped, hnames, if_neg hmem, List.map_append, hsame, List.map_singleton,
        valuesOf_concat, if_pos rfl, valuesOf_of_not_mem hmem]
      rfl
    rw [addProperty_of_not_mem hnew, hlast]

/-- Each value of a grouped property was declared for its name, and there is one at least. -/
theorem of_mem_grouped {pairs : List (String × String)} {entry : String × PropertyValue}
    (h : entry ∈ grouped pairs) :
    entry.2.Declarable ∧ ∀ value ∈ entry.2.values, (entry.1, value) ∈ pairs := by
  obtain ⟨name, hname, rfl⟩ := List.mem_map.1 h
  refine ⟨PropertyValue.declarable_ofValues (valuesOf_ne_nil (List.mem_eraseDups.1 hname)), ?_⟩
  intro value hvalue
  rw [PropertyValue.values_ofValues] at hvalue
  obtain ⟨⟨other, declared⟩, hpair, rfl⟩ := List.mem_map.1 hvalue
  obtain ⟨hmem, hsame⟩ := List.mem_filter.1 hpair
  obtain rfl : other = name := by simpa using hsame
  exact hmem

end Block

end StyleTree
