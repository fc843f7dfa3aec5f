import StyleTree.Proofs.Block.Json
import StyleTree.Proofs.Table

/-!
# Places of a value

The first place of a value where no block can be is reported, outer places before inner ones and in
the order of keys.
-/

namespace StyleTree

namespace Json

/-! ### Places -/

/-- What an object holds under a name. -/
def member? (value : Json) (name : String) : Option Json :=
  value.members?.bind (Table.find? · name)

/-- The values that an object holds as nested blocks, with their keys. -/
def nested (value : Json) : List (String × Json) :=
  ((value.member? "children").bind members?).getD []

theorem sizeOf_lt_of_find? {members : List (String × Json)} {name : String} {held : Json}
    (h : Table.find? members name = some held) : sizeOf held < sizeOf members := by
  induction members with
  | nil => simp at h
  | cons member rest ih =>
    obtain ⟨other, value⟩ := member
    rw [Table.find?_cons] at h
    split at h
    · obtain rfl := Option.some.inj h
      simp only [List.cons.sizeOf_spec, Prod.mk.sizeOf_spec]
      omega
    · have := ih h
      simp only [List.cons.sizeOf_spec]
      omega

theorem sizeOf_lt_of_mem_nested {value : Json} {entry : String × Json}
    (h : entry ∈ value.nested) : sizeOf entry.2 < sizeOf value := by
  cases value with
  | object members =>
    rw [nested, member?, members?, Option.bind_some] at h
    cases hheld : Table.find? members "children" with
    | none => simp [hheld] at h
    | some held =>
      have hsize := sizeOf_lt_of_find? hheld
      cases held with
      | object inner =>
        simp only [hheld, Option.bind_some, members?, Option.getD_some] at h
        have hentry := List.sizeOf_lt_of_mem h
        obtain ⟨key, child⟩ := entry
        simp only [object.sizeOf_spec, Prod.mk.sizeOf_spec] at hsize hentry ⊢
        omega
      | _ => simp [hheld, members?] at h
  | _ => simp [nested, member?, members?] at h

/-- The places of a value where blocks should be: the value itself, and for each of the values
nested in it as blocks the places of that one, in the order of keys. Each is given by the keys that
lead to it. -/
def places (value : Json) : List (List String × Json) :=
  ([], value) ::
    value.nested.attach.flatMap fun ⟨(key, child), _⟩ =>
      child.places.map fun (keys, place) => (key :: keys, place)
termination_by sizeOf value
decreasing_by exact sizeOf_lt_of_mem_nested ‹_›

theorem places_eq (value : Json) :
    value.places = ([], value) ::
      value.nested.flatMap fun entry =>
        entry.2.places.map fun place => (entry.1 :: place.1, place.2) := by
  have hattach := List.flatMap_subtype (l := value.nested.attach)
    (f := fun ⟨(key, child), _⟩ => child.places.map fun (keys, place) => (key :: keys, place))
    (g := fun entry => entry.2.places.map fun place => (entry.1 :: place.1, place.2))
    fun _ _ => rfl
  rw [List.unattach_attach] at hattach
  rw [places]
  exact congrArg _ hattach

theorem places_of_nested_eq_nil {value : Json} (h : value.nested = []) :
    value.places = [([], value)] := by
  rw [places_eq, h, List.flatMap_nil]

theorem forall_mem_places_iff {P : Json → Prop} {value : Json} :
    (∀ place ∈ value.places, P place.2) ↔
      P value ∧ ∀ entry ∈ value.nested, ∀ place ∈ entry.2.places, P place.2 := by
  rw [places_eq, List.forall_mem_cons]
  simp only [List.forall_mem_flatMap, List.forall_mem_map]

/-- What holds of a value if it holds of the values nested in it as blocks holds of all values. -/
theorem nested_induction {P : Json → Prop}
    (h : ∀ value : Json, (∀ entry ∈ value.nested, P entry.2) → P value) (value : Json) :
    P value :=
  h value fun entry _ => nested_induction h entry.2
termination_by sizeOf value
decreasing_by exact sizeOf_lt_of_mem_nested ‹_›

/-! ### Conditions on one place -/

/-- What makes a place no block, and whether what is nested in it is at fault. -/
inductive Offends : Json → Bool → Prop where
  /-- The place is no object. -/
  | noObject {value : Json} (h : value.members? = none) : Offends value false
  /-- It has neither properties nor nested blocks. -/
  | noContent {value : Json} (hproperties : value.member? "attributes" = none)
    (hchildren : value.member? "children" = none) : Offends value false
  /-- What should hold the nested blocks is no object. -/
  | noChildren {value held : Json} (hheld : value.member? "children" = some held)
    (h : held.members? = none) : Offends value true

/-- How a place offends, if it does. -/
def fault? (value : Json) : Option Bool :=
  match value.member? "children" with
  | some held => if held.members? = none then some true else none
  | none => if value.member? "attributes" = none then some false else none

theorem offends_iff {value : Json} {inChildren : Bool} :
    Offends value inChildren ↔ value.fault? = some inChildren := by
  constructor
  · intro h
    cases h with
    | noObject h => simp [fault?, member?, h]
    | noContent hproperties hchildren => simp [fault?, hproperties, hchildren]
    | noChildren hheld h => simp [fault?, hheld, h]
  · intro h
    rw [fault?] at h
    split at h
    · rename_i held hheld
      obtain ⟨hnone, rfl⟩ : held.members? = none ∧ true = inChildren := by
        simpa [Option.ite_none_right_eq_some] using h
      exact .noChildren hheld hnone
    · rename_i hchildren
      obtain ⟨hnone, rfl⟩ : value.member? "attributes" = none ∧ false = inChildren := by
        simpa [Option.ite_none_right_eq_some] using h
      exact .noContent hnone hchildren

theorem not_offends_iff {value : Json} :
    (∀ inChildren, ¬Offends value inChildren) ↔ value.fault? = none := by
  rw [Option.eq_none_iff_forall_ne_some]
  simp only [offends_iff, ne_eq]

/-- How a place offends, with the keys that lead to it. -/
def offence? (place : List String × Json) : Option Misfit :=
  place.2.fault?.map fun inChildren => ⟨place.1, inChildren⟩

theorem offence?_under (key : String) (place : List String × Json) :
    offence? (key :: place.1, place.2) =
      (offence? place).map fun misfit => { misfit with keys := key :: misfit.keys } := by
  rw [offence?, offence?, Option.map_map]
  rfl

end Json

namespace Block

open Json

/-! ### The first place that offends -/

theorem misfitIn?_eq (members : List (String × Json)) :
    misfitIn? members = (Table.find? members "children").bind fun held =>
      match held.members? with
      | some children => misfitAmong? children
      | none => some ⟨[], true⟩ := by
  induction members with
  | nil => rfl
  | cons member rest ih =>
    obtain ⟨name, value⟩ := member
    rw [Table.find?_cons]
    by_cases hname : name = "children"
    · subst hname
      cases value <;> simp [misfitIn?, members?]
    · rw [if_neg (Ne.symm hname), ← ih]
      cases value <;> simp [misfitIn?, hname]

theorem misfitAmong?_eq {children : List (String × Json)}
    (h : ∀ entry ∈ children, misfit? entry.2 = entry.2.places.findSome? offence?) :
    misfitAmong? children =
      (children.flatMap fun entry =>
        entry.2.places.map fun place => (entry.1 :: place.1, place.2)).findSome? offence? := by
  induction children with
  | nil => rfl
  | cons entry rest ih =>
    obtain ⟨key, child⟩ := entry
    obtain ⟨hchild, hrest⟩ := List.forall_mem_cons.1 h
    have hunder : (child.places.map fun place => (key :: place.1, place.2)).findSome? offence? =
        (misfit? child).map fun misfit => { misfit with keys := key :: misfit.keys } := by
      rw [hchild, List.map_findSome?, List.findSome?_map]
      exact congrArg (child.places.findSome? ·) (funext (offence?_under key))
    rw [misfitAmong?, List.flatMap_cons, List.findSome?_append, hunder, ih hrest]
    cases misfit? child <;> rfl

/-- The place that is reported is the first one that offends. -/
theorem misfit?_eq (value : Json) : misfit? value = value.places.findSome? offence? := by
  induction value using nested_induction with
  | h value ih =>
    have hnested : misfitAmong? value.nested = _ := misfitAmong?_eq ih
    rw [places_eq, List.findSome?_cons, ← hnested]
    cases value with
    | object members =>
      rw [misfit?, misfitIn?_eq, offence?, fault?, nested, member?, member?, members?,
        Option.bind_some, Option.bind_some, hasContent, Table.contains, Table.contains]
      cases hchildren : Table.find? members "children" with
      | none => cases Table.find? members "attributes" <;> rfl
      | some held =>
        cases hinner : held.members? <;> simp [hinner]
    | _ => rfl

end Block

end StyleTree
