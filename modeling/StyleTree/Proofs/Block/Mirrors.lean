import StyleTree.Proofs.Block.Places

namespace StyleTree

namespace Json

/-! ### What a block declares -/

/-- An array of strings. -/
def IsTexts (value : Json) : Prop :=
  ∃ texts : List String, value = .array (texts.map .string)

/-- What a property is declared as by a value: a string by itself, or all strings of an array. -/
inductive Declares : Json → PropertyValue → Prop where
  | once (text : String) : Declares (.string text) (.once text)
  | repeated (texts : List String) : Declares (.array (texts.map .string)) (.repeated texts)

/-- Properties and statements of a place are of the right kind, where there are any. -/
structure IsSuitable (value : Json) : Prop where
  /-- The properties are an object of strings and arrays of strings. -/
  properties : ∀ held ∈ value.member? "attributes", ∃ declared, held = .object declared ∧
    ∀ entry ∈ declared, (∃ text, entry.2 = .string text) ∨ entry.2.IsTexts
  /-- The statements are an array of strings. -/
  statements : ∀ held ∈ value.member? "statements", held.IsTexts

/-- The members of the object that a value holds under a name. There are none if the name is
missing. -/
def HoldsMembers (value : Json) (name : String) (members : List (String × Json)) : Prop :=
  value.member? name = some (.object members) ∨ value.member? name = none ∧ members = []

/-- The strings of the array that a value holds under a name. There are none if the name is
missing. -/
def HoldsTexts (value : Json) (name : String) (texts : List String) : Prop :=
  value.member? name = some (.array (texts.map .string)) ∨ value.member? name = none ∧ texts = []

/-- A block has what a value holds: the same keys and names in the same order, with blocks that
mirror the nested values and with what their values declare, and the same statements. What else the
value holds is ignored. -/
inductive Mirrors : Json → Block → Prop where
  | level {members nested declared : List (String × Json)} {children : List (String × Block)}
    {properties : List (String × PropertyValue)} {statements : List String}
    (hnested : HoldsMembers (.object members) "children" nested)
    (hchildren : Table.Related Mirrors nested children)
    (hdeclared : HoldsMembers (.object members) "attributes" declared)
    (hproperties : Table.Related Declares declared properties)
    (hstatements : HoldsTexts (.object members) "statements" statements) :
    Mirrors (.object members) ⟨children, properties, statements⟩

theorem strings?_eq_some_iff {value : Json} {texts : List String} :
    value.strings? = some texts ↔ value = .array (texts.map .string) := by
  constructor
  · intro h
    cases value with
    | array items =>
      rw [strings?] at h
      congr 1
      induction items generalizing texts with
      | nil => simp_all
      | cons item rest ih =>
        simp only [List.mapM_cons, Option.bind_eq_bind, Option.pure_def,
          Option.bind_eq_some_iff] at h
        obtain ⟨text, htext, others, hothers, hcons⟩ := h
        obtain rfl := Option.some.inj hcons
        rw [ih hothers]
        cases item <;> simp_all [string?]
    | _ => simp [strings?] at h
  · rintro rfl
    exact strings?_map_string texts

theorem exists_declares_iff {value : Json} :
    (∃ declared, Declares value declared) ↔ (∃ text, value = .string text) ∨ value.IsTexts := by
  constructor
  · rintro ⟨_, ⟨text⟩ | ⟨texts⟩⟩
    · exact .inl ⟨text, rfl⟩
    · exact .inr ⟨texts, rfl⟩
  · rintro (⟨text, rfl⟩ | ⟨texts, rfl⟩)
    · exact ⟨_, .once text⟩
    · exact ⟨_, .repeated texts⟩

theorem members?_eq_some_iff {value : Json} {members : List (String × Json)} :
    value.members? = some members ↔ value = .object members := by
  cases value <;> simp [members?]

/-- Reading the members under a name, where no members are read if the name is missing. -/
theorem read_member?_eq_some_iff {γ : Type} {read : List (String × Json) → Option (List γ)}
    (hnil : read [] = some []) {value : Json} {name : String} {list : List γ} :
    (match value.member? name with
      | none => some []
      | some held => held.members?.bind read) = some list ↔
      ∃ members, value.HoldsMembers name members ∧ read members = some list := by
  cases hheld : value.member? name with
  | none => simp [HoldsMembers, hheld, hnil]
  | some held =>
    simp [HoldsMembers, hheld, Option.bind_eq_some_iff, members?_eq_some_iff]

theorem HoldsMembers.nested_eq {value : Json} {members : List (String × Json)}
    (h : value.HoldsMembers "children" members) : value.nested = members := by
  rcases h with h | ⟨h, rfl⟩ <;> simp [nested, h, members?]

end Json

theorem PropertyValue.ofJson?_eq_some_iff {value : Json} {declared : PropertyValue} :
    ofJson? value = some declared ↔ Json.Declares value declared := by
  constructor
  · intro h
    unfold ofJson? at h
    split at h
    · obtain rfl := Option.some.inj h
      exact .once _
    · obtain ⟨texts, htexts, rfl⟩ := Option.map_eq_some_iff.1 h
      rw [Json.strings?_eq_some_iff.1 htexts]
      exact .repeated texts
  · intro h
    cases h with
    | once text => rfl
    | repeated texts => exact ofJson?_toJson (.repeated texts)

namespace Block

open Json

/-! ### The block of a value -/

theorem propertiesIn?_eq (members : List (String × Json)) :
    propertiesIn? members =
      match (Json.object members).member? "attributes" with
      | none => some []
      | some held => held.members?.bind (List.mapM fun (name, value) => do
          return (name, ← PropertyValue.ofJson? value)) :=
  rfl

theorem propertiesIn?_eq_some_iff {members : List (String × Json)}
    {properties : List (String × PropertyValue)} :
    propertiesIn? members = some properties ↔
      ∃ declared, HoldsMembers (.object members) "attributes" declared ∧
        Table.Related Declares declared properties := by
  rw [propertiesIn?_eq, read_member?_eq_some_iff]
  · simp only [Table.mapM_eq_some_iff, PropertyValue.ofJson?_eq_some_iff]
  · rfl

theorem statementsIn?_eq_some_iff {members : List (String × Json)} {statements : List String} :
    statementsIn? members = some statements ↔
      HoldsTexts (.object members) "statements" statements := by
  rw [statementsIn?, HoldsTexts, member?, members?, Option.bind_some]
  cases Table.find? members "statements" with
  | none => simp [eq_comm]
  | some held => simp [strings?_eq_some_iff]

theorem childrenOf?_eq_mapM (nested : List (String × Json)) :
    childrenOf? nested = nested.mapM fun (key, value) => do return (key, ← ofJson? value) := by
  induction nested with
  | nil => rfl
  | cons entry rest ih =>
    obtain ⟨key, value⟩ := entry
    simp only [childrenOf?, ih, List.mapM_cons, bind_assoc, pure_bind]

theorem childrenIn?_eq (members : List (String × Json)) :
    childrenIn? members =
      match (Json.object members).member? "children" with
      | none => some []
      | some held => held.members?.bind childrenOf? := by
  rw [member?, members?, Option.bind_some]
  induction members with
  | nil => rfl
  | cons member rest ih =>
    obtain ⟨name, value⟩ := member
    rw [Table.find?_cons]
    by_cases hname : name = "children"
    · subst hname
      cases value <;> simp [childrenIn?, members?]
    · rw [if_neg (Ne.symm hname), ← ih]
      cases value <;> simp [childrenIn?, hname]

theorem childrenIn?_eq_some_iff {members : List (String × Json)}
    {children : List (String × Block)} :
    childrenIn? members = some children ↔
      ∃ nested, HoldsMembers (.object members) "children" nested ∧
        Table.Related (fun value block => ofJson? value = some block) nested children := by
  rw [childrenIn?_eq, read_member?_eq_some_iff]
  · simp only [childrenOf?_eq_mapM, Table.mapM_eq_some_iff]
  · rfl

theorem ofJson?_eq_some_iff {value : Json} {block : Block} :
    ofJson? value = some block ↔ Mirrors value block := by
  induction value using nested_induction generalizing block with
  | h value ih =>
    cases value with
    | object members =>
      obtain ⟨children, properties, statements⟩ := block
      -- What is nested is mirrored where it is read, by the induction hypothesis.
      have hrelated : ∀ {nested}, HoldsMembers (.object members) "children" nested →
          (Table.Related (fun value block => ofJson? value = some block) nested children ↔
            Table.Related Mirrors nested children) := by
        rintro nested hnested
        apply Table.related_congr
        rw [← hnested.nested_eq]
        exact fun entry hentry _ => ih entry hentry
      have hparts : ofJson? (.object members) = some ⟨children, properties, statements⟩ ↔
          childrenIn? members = some children ∧ propertiesIn? members = some properties ∧
            statementsIn? members = some statements := by
        simp only [ofJson?, Option.bind_eq_bind, Option.bind_eq_some_iff, Option.pure_def,
          Option.some.injEq, Block.mk.injEq]
        grind
      rw [hparts, childrenIn?_eq_some_iff, propertiesIn?_eq_some_iff, statementsIn?_eq_some_iff]
      constructor
      · rintro ⟨⟨nested, hnested, hchildren⟩, ⟨declared, hdeclared, hproperties⟩, hstatements⟩
        exact .level hnested ((hrelated hnested).1 hchildren) hdeclared hproperties hstatements
      · intro h
        cases h with
        | @level _ nested declared _ _ _ hnested hchildren hdeclared hproperties hstatements =>
          exact ⟨⟨nested, hnested, (hrelated hnested).2 hchildren⟩,
            ⟨declared, hdeclared, hproperties⟩, hstatements⟩
    | _ =>
      constructor
      · intro h
        simp [ofJson?] at h
      · rintro ⟨⟩

/-! ### Values that have a block -/

theorem isSuitable_iff {value : Json} :
    value.IsSuitable ↔
      (∃ declared, value.HoldsMembers "attributes" declared ∧
        ∃ properties, Table.Related Declares declared properties) ∧
      ∃ statements, value.HoldsTexts "statements" statements := by
  simp only [Table.exists_related_iff, exists_declares_iff]
  constructor
  · rintro ⟨hproperties, hstatements⟩
    constructor
    · cases hheld : value.member? "attributes" with
      | none => exact ⟨[], .inr ⟨hheld, rfl⟩, by simp⟩
      | some held =>
        obtain ⟨declared, rfl, hdeclared⟩ := hproperties held hheld
        exact ⟨declared, .inl hheld, hdeclared⟩
    · cases hheld : value.member? "statements" with
      | none => exact ⟨[], .inr ⟨hheld, rfl⟩⟩
      | some held =>
        obtain ⟨texts, rfl⟩ := hstatements held hheld
        exact ⟨texts, .inl hheld⟩
  · rintro ⟨⟨declared, hdeclared, hproperties⟩, statements, hstatements⟩
    constructor
    · rintro held hheld
      rcases hdeclared with hdeclared | ⟨hnone, -⟩
      · obtain rfl := Option.some.inj (hdeclared.symm.trans hheld)
        exact ⟨declared, rfl, hproperties⟩
      · simp [hnone] at hheld
    · rintro held hheld
      rcases hstatements with hstatements | ⟨hnone, -⟩
      · obtain rfl := Option.some.inj (hstatements.symm.trans hheld)
        exact ⟨statements, rfl⟩
      · simp [hnone] at hheld

/-- One level has a block if it is suitable and what is nested in it has blocks. -/
theorem exists_mirrors_object_iff {members nested : List (String × Json)}
    (hnested : HoldsMembers (.object members) "children" nested) :
    (∃ block, Mirrors (.object members) block) ↔
      (Json.object members).IsSuitable ∧ ∀ entry ∈ nested, ∃ block, Mirrors entry.2 block := by
  rw [isSuitable_iff, ← Table.exists_related_iff]
  constructor
  · rintro ⟨_, ⟨hfound, hchildren, hdeclared, hproperties, hstatements⟩⟩
    rw [← hfound.nested_eq, hnested.nested_eq] at hchildren
    exact ⟨⟨⟨_, hdeclared, _, hproperties⟩, _, hstatements⟩, _, hchildren⟩
  · rintro ⟨⟨⟨_, hdeclared, _, hproperties⟩, _, hstatements⟩, _, hchildren⟩
    exact ⟨_, .level hnested hchildren hdeclared hproperties hstatements⟩

/-- A place that does not offend is an object, and what is nested in it are members of an object. -/
theorem exists_of_fault?_eq_none {value : Json} (h : value.fault? = none) :
    ∃ members, value = .object members ∧ value.HoldsMembers "children" value.nested := by
  rw [fault?] at h
  split at h
  · rename_i held hheld
    cases hinner : held.members? with
    | none => simp [hinner] at h
    | some nested =>
      obtain rfl := members?_eq_some_iff.1 hinner
      obtain ⟨members, hmembers, -⟩ := Option.bind_eq_some_iff.1 hheld
      have hnested : value.HoldsMembers "children" nested := .inl hheld
      exact ⟨members, members?_eq_some_iff.1 hmembers, hnested.nested_eq.symm ▸ hnested⟩
  · rename_i hnone
    cases hproperties : value.member? "attributes" with
    | none => simp [hproperties] at h
    | some held =>
      obtain ⟨members, hmembers, -⟩ := Option.bind_eq_some_iff.1 hproperties
      have hnested : value.HoldsMembers "children" [] := .inr ⟨hnone, rfl⟩
      exact ⟨members, members?_eq_some_iff.1 hmembers, hnested.nested_eq.symm ▸ hnested⟩

/-- A value of which no place offends has a block exactly if all its places are suitable. -/
theorem exists_mirrors_iff {value : Json} (h : ∀ place ∈ value.places, place.2.fault? = none) :
    (∃ block, Mirrors value block) ↔ ∀ place ∈ value.places, place.2.IsSuitable := by
  induction value using nested_induction with
  | h value ih =>
    obtain ⟨hself, hinner⟩ := (forall_mem_places_iff (P := fun place => place.fault? = none)).1 h
    obtain ⟨members, rfl, hnested⟩ := exists_of_fault?_eq_none hself
    rw [exists_mirrors_object_iff hnested, forall_mem_places_iff]
    exact and_congr_right fun _ =>
      forall₂_congr fun entry hentry => ih entry hentry (hinner entry hentry)

/-- What a value is read as. The first place that offends is reported, whatever is declared at any
place. Without such a place, a value is read as the block that mirrors it if all that is declared is
of the right kind, and is unsuitable otherwise. -/
theorem ofJson_eq (value : Json) :
    (∀ before keys place after inChildren, value.places = before ++ (keys, place) :: after →
      (∀ earlier ∈ before, ∀ fault, ¬Offends earlier.2 fault) → Offends place inChildren →
      ofJson value = .error (.notABlock ⟨keys, inChildren⟩)) ∧
    ((∀ place ∈ value.places, ∀ fault, ¬Offends place.2 fault) →
      ((∀ place ∈ value.places, place.2.IsSuitable) →
        ∃ block, ofJson value = .ok block ∧ Mirrors value block) ∧
      (¬(∀ place ∈ value.places, place.2.IsSuitable) →
        ofJson value = .error (.json .unsuitable))) ∧
    ∀ keys, Misfit.path ⟨keys, true⟩ = Misfit.path ⟨keys, false⟩ ++ ".children" := by
  simp only [not_offends_iff]
  refine ⟨?_, ?_, fun keys => ?_⟩
  · intro before keys place after inChildren hplaces hbefore hoffends
    -- The search for a misfit goes through the places in their order.
    have hmisfit : misfit? value = some ⟨keys, inChildren⟩ := by
      rw [misfit?_eq, List.findSome?_eq_some_iff]
      refine ⟨before, (keys, place), after, hplaces, ?_, fun earlier hearlier => ?_⟩
      · rw [offence?, offends_iff.1 hoffends, Option.map_some]
      · rw [offence?, hbefore earlier hearlier, Option.map_none]
    rw [ofJson, hmisfit]
  · intro hnone
    have hmisfit : misfit? value = none := by
      rw [misfit?_eq, List.findSome?_eq_none_iff]
      intro place hplace
      rw [offence?, hnone place hplace, Option.map_none]
    rw [ofJson, hmisfit, ← exists_mirrors_iff hnone]
    constructor
    · rintro ⟨block, hblock⟩
      exact ⟨block, by rw [ofJson?_eq_some_iff.2 hblock], hblock⟩
    · intro hnoblock
      have hunread : ofJson? value = none :=
        Option.eq_none_iff_forall_ne_some.2 fun block hblock =>
          hnoblock ⟨block, ofJson?_eq_some_iff.1 hblock⟩
      rw [hunread]
  · simp [Misfit.path]

/-- A value with unsuitable properties at its first two places, which are blocks, and with two
places after them that are not. -/
def misplaced : Json :=
  .object [("attributes", .bool true),
    ("children", .object
      [("a", .object [("attributes", .null)]),
        ("b", .object [("statements", .array []), ("children", .string "c")]),
        ("d", .object [("color", .null)])])]

/-- A value with one member that is not known, and with some members that blocks have missing at
each of its places. -/
def partialLevels : Json :=
  .object [("color", .null),
    ("children", .object
      [("b", .object [("attributes", .object
          [("y", .array [.string "2"]), ("x", .string "1"), ("z", .array [])])]),
        ("a", .object [("statements", .array [.string "@a;"]), ("children", .object [])])])]

theorem ofJson_eq_partialLevels :
    ofJson misplaced = .error (.notABlock ⟨["b"], true⟩) ∧
      (∃ block, ofJson partialLevels = .ok block ∧ Mirrors partialLevels block) ∧
      ofJson (.object [("attributes", .object []), ("statements", .null)]) =
        .error (.json .unsuitable) := by
  have hmisplaced : misplaced.places =
      [([], misplaced), (["a"], .object [("attributes", .null)]),
        (["b"], .object [("statements", .array []), ("children", .string "c")]),
        (["d"], .object [("color", .null)])] := by
    rw [places_eq]
    simp [misplaced, places_of_nested_eq_nil, nested, member?, members?, Table.find?_cons]
  refine ⟨?_, ?_, ?_⟩
  · refine (ofJson_eq misplaced).1 [_, _] _ _ _ true hmisplaced ?_ (.noChildren rfl rfl)
    simp only [not_offends_iff]
    simp [misplaced, fault?, member?, members?, Table.find?_cons]
  · have hplain : ∀ place ∈ partialLevels.places, ∀ fault, ¬Offends place.2 fault := by
      simp only [not_offends_iff]
      rw [places_eq]
      simp [partialLevels, places_of_nested_eq_nil, nested, member?, members?, Table.find?_cons,
        fault?]
    have hread : ofJson? partialLevels = some
        ⟨[("b", ⟨[], [("y", .repeated ["2"]), ("x", .once "1"), ("z", .repeated [])], []⟩),
          ("a", ⟨[], [], ["@a;"]⟩)], [], []⟩ := by
      decide +kernel
    refine ((ofJson_eq partialLevels).2.1 hplain).1 ?_
    rw [← exists_mirrors_iff (by simpa only [not_offends_iff] using hplain)]
    exact ⟨_, ofJson?_eq_some_iff.1 hread⟩
  · refine ((ofJson_eq _).2.1 ?_).2 ?_
    · simp only [not_offends_iff]
      simp [places_of_nested_eq_nil, nested, member?, members?, Table.find?_cons, fault?]
    · intro hsuitable
      obtain ⟨texts, htexts⟩ :=
        (hsuitable ([], _) (by rw [places_eq]; exact List.mem_cons_self ..)).statements .null rfl
      simp at htexts

end Block

end StyleTree
