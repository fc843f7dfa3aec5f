import StyleTree.Block.Parser
import StyleTree.Proofs.Block.RoundTrip
import StyleTree.Proofs.Json.RoundTrip
import StyleTree.Proofs.Sheet.Agreement

/-!
# Keyed blocks that are written and read as JSON

Each level of nested blocks takes two objects, and a property that was declared several times takes
an array, so that the limit of the reader is reached with fewer blocks than style sheets may nest.
-/

namespace StyleTree

namespace Json

theorem mapM_map_eq_some {α γ : Type} {write : α → γ} {read : γ → Option α}
    (h : ∀ a, read (write a) = some a) (list : List α) :
    (list.map write).mapM read = some list := by
  induction list with
  | nil => rfl
  | cons a rest ih => simp [h, ih]

theorem strings?_map_string (texts : List String) :
    (array (texts.map .string)).strings? = some texts := by
  have hread : ∀ text, string? (string text) = some text := fun _ => rfl
  exact mapM_map_eq_some hread texts

theorem regularItems_map_string (texts : List String) : RegularItems (texts.map .string) := by
  induction texts with
  | nil => trivial
  | cons text rest ih => exact ⟨trivial, ih⟩

theorem heightOfItems_map_string (texts : List String) :
    heightOfItems (texts.map .string) = 0 := by
  induction texts with
  | nil => rfl
  | cons text rest ih => simpa [heightOfItems, height] using ih

end Json

namespace PropertyValue

/-- What a property was declared as comes back from its value, so that one value in an array is
not taken for a value by itself. -/
theorem ofJson?_toJson (value : PropertyValue) : ofJson? value.toJson = some value := by
  cases value with
  | once text => rfl
  | repeated values =>
    have hstrings := Json.strings?_map_string values
    simp [toJson, ofJson?, hstrings]

theorem regular_toJson (value : PropertyValue) : value.toJson.Regular := by
  cases value with
  | once text => trivial
  | repeated values => exact Json.regularItems_map_string values

theorem height_toJson (value : PropertyValue) :
    value.toJson.height = if value.once?.isNone then 1 else 0 := by
  cases value with
  | once text => rfl
  | repeated values => simp [toJson, Json.height, Json.heightOfItems_map_string, once?]

end PropertyValue

namespace Block

/-! ### How deep the value of a block nests -/

mutual

/-- How many arrays and objects are open at a time, at most, in the JSON text of a block: two for
the block and what holds its nested blocks or properties, one more for an array of values, and two
more than for each nested block. -/
def jsonLevels : Block → Nat
  | ⟨children, properties, _⟩ =>
    max (if properties.any fun entry => entry.2.once?.isNone then 3 else 2)
      (jsonLevelsIn children)

/-- The greatest such number among nested blocks, with the two that are open around each. -/
def jsonLevelsIn : List (String × Block) → Nat
  | [] => 0
  | (_, child) :: rest => max (2 + child.jsonLevels) (jsonLevelsIn rest)

end

/-- The member that holds the properties of a block. -/
theorem heightOfMembers_properties (properties : List (String × PropertyValue)) :
    Json.heightOfMembers (properties.map fun (name, value) => (name, value.toJson)) =
      if properties.any fun entry => entry.2.once?.isNone then 1 else 0 := by
  induction properties with
  | nil => rfl
  | cons entry rest ih =>
    simp only [List.map_cons, Json.heightOfMembers, ih, PropertyValue.height_toJson,
      List.any_cons]
    by_cases hfirst : entry.2.once?.isNone = true
    · simp only [hfirst, if_true, Bool.true_or]
      split <;> rfl
    · simp only [hfirst, Bool.false_or]
      simp

/-- The member that holds the statements of a block, if there are any. -/
theorem heightOfMembers_statements (statements : List String) :
    Json.heightOfMembers (if statements.isEmpty then []
      else [("statements", .array (statements.map .string))]) ≤ 1 := by
  split <;> simp [Json.heightOfMembers, Json.height, Json.heightOfItems_map_string]

theorem heightOfMembers_append (left right : List (String × Json)) :
    Json.heightOfMembers (left ++ right) =
      max (Json.heightOfMembers left) (Json.heightOfMembers right) := by
  induction left with
  | nil => simp [Json.heightOfMembers]
  | cons member rest ih => simp [Json.heightOfMembers, ih, Nat.max_assoc]

mutual

/-- The height of the value of a block is the number of arrays and objects that are open at a time
in its text. -/
theorem height_toJson : ∀ block : Block, block.toJson.height = block.jsonLevels
  | ⟨children, properties, statements⟩ => by
    have hchildren := heightOfMembers_childrenJson children
    have hstatements := heightOfMembers_statements statements
    rw [toJson, Json.height, heightOfMembers_append]
    simp only [Json.heightOfMembers, Json.height, heightOfMembers_properties, jsonLevels]
    split <;> omega

theorem heightOfMembers_childrenJson : ∀ children : List (String × Block),
    Json.heightOfMembers (childrenJson children) + 2 = max 2 (jsonLevelsIn children)
  | [] => rfl
  | (_, child) :: rest => by
    have hchild := height_toJson child
    have hrest := heightOfMembers_childrenJson rest
    rw [childrenJson, Json.heightOfMembers, jsonLevelsIn]
    omega

end

mutual

/-- Each level of nested blocks takes two objects. -/
theorem two_mul_levels_le : ∀ block : Block, 2 * block.levels + 2 ≤ block.jsonLevels
  | ⟨children, properties, _⟩ => by
    have hchildren := two_mul_levelsIn_le children
    rw [levels, jsonLevels]
    split <;> omega

theorem two_mul_levelsIn_le : ∀ children : List (String × Block),
    2 * levelsIn children + 2 ≤ max 2 (jsonLevelsIn children)
  | [] => by decide
  | (_, child) :: rest => by
    have hchild := two_mul_levels_le child
    have hrest := two_mul_levelsIn_le rest
    rw [levelsIn, jsonLevelsIn]
    omega

end

/-! ### Values of blocks -/

theorem keys_childrenJson (children : List (String × Block)) :
    Table.keys (childrenJson children) = Table.keys children := by
  induction children with
  | nil => rfl
  | cons entry rest ih =>
    rw [childrenJson]
    exact congrArg (entry.1 :: ·) ih

theorem keys_properties (properties : List (String × PropertyValue)) :
    Table.keys (properties.map fun (name, value) => (name, value.toJson)) =
      Table.keys properties := by
  simp [Table.keys]

theorem regularMembers_properties (properties : List (String × PropertyValue)) :
    Json.RegularMembers (properties.map fun (name, value) => (name, value.toJson)) := by
  induction properties with
  | nil => trivial
  | cons entry rest ih => exact ⟨entry.2.regular_toJson, ih⟩

mutual

theorem regular_toJson : ∀ block : Block, block.Keyed → block.toJson.Regular
  | ⟨children, properties, statements⟩, h => by
    obtain ⟨⟨hselectors, hnames⟩, hnested⟩ := h
    have hchildren : (Json.object (childrenJson children)).Regular :=
      ⟨by rwa [keys_childrenJson], regularMembers_childrenJson children hnested⟩
    have hproperties : (Json.object (properties.map fun (name, value) =>
        (name, value.toJson))).Regular :=
      ⟨by rwa [keys_properties], regularMembers_properties properties⟩
    rw [toJson]
    split
    · exact ⟨by simp [Table.keys], hchildren, hproperties, trivial⟩
    · exact ⟨by simp [Table.keys], hchildren, hproperties,
        Json.regularItems_map_string statements, trivial⟩

theorem regularMembers_childrenJson : ∀ children : List (String × Block),
    EverywhereIn HasDistinctKeys children → Json.RegularMembers (childrenJson children)
  | [], _ => trivial
  | (_, child) :: rest, h => by
    rw [childrenJson]
    exact ⟨regular_toJson child h.1, regularMembers_childrenJson rest h.2⟩

end

mutual

theorem misfit?_toJson : ∀ block : Block, misfit? block.toJson = none
  | ⟨children, properties, statements⟩ => by
    have hchildren := misfitAmong?_childrenJson children
    simp [toJson, misfit?, hasContent, Table.contains, Table.find?_cons, misfitIn?, hchildren]

theorem misfitAmong?_childrenJson : ∀ children : List (String × Block),
    misfitAmong? (childrenJson children) = none
  | [] => rfl
  | (_, child) :: rest => by
    have hchild := misfit?_toJson child
    have hrest := misfitAmong?_childrenJson rest
    simp [childrenJson, misfitAmong?, hchild, hrest]

end

theorem propertiesIn?_of_find? {members : List (String × Json)}
    {properties : List (String × PropertyValue)}
    (h : Table.find? members "attributes" =
      some (.object (properties.map fun (name, value) => (name, value.toJson)))) :
    propertiesIn? members = some properties := by
  have hread : ∀ entry : String × PropertyValue,
      (do return (entry.1, ← PropertyValue.ofJson? entry.2.toJson)) = some entry := by
    intro entry
    simp [PropertyValue.ofJson?_toJson]
  rw [propertiesIn?, h]
  exact Json.mapM_map_eq_some hread properties

mutual

theorem ofJson?_toJson : ∀ block : Block, ofJson? block.toJson = some block
  | ⟨children, properties, statements⟩ => by
    have hchildren := childrenOf?_childrenJson children
    have hproperties : ∀ more, propertiesIn? (("children", .object (childrenJson children)) ::
        ("attributes", .object (properties.map fun (name, value) => (name, value.toJson))) ::
          more) = some properties :=
      fun more => propertiesIn?_of_find? (by simp [Table.find?_cons])
    have hstatements := Json.strings?_map_string statements
    rw [toJson, List.cons_append, List.cons_append, List.nil_append, ofJson?, hproperties]
    cases statements <;>
      simp_all [childrenIn?, statementsIn?, Table.find?_cons]

theorem childrenOf?_childrenJson : ∀ children : List (String × Block),
    childrenOf? (childrenJson children) = some children
  | [] => rfl
  | (_, child) :: rest => by
    have hchild := ofJson?_toJson child
    have hrest := childrenOf?_childrenJson rest
    simp [childrenJson, childrenOf?, hchild, hrest]

end

theorem ofJson_toJson (block : Block) : ofJson block.toJson = .ok block := by
  rw [ofJson, misfit?_toJson, ofJson?_toJson]

/-! ### Texts of blocks -/

/-- The text of a block is read as the block, unless too much is open in it at a time. -/
theorem ofJsonText_print {block : Block} (h : block.Keyed) (layout : Json.Layout) :
    ofJsonText (block.toJson.print layout) =
      if block.jsonLevels ≤ Json.maxOpen then .ok block else .error (.json .malformed) := by
  rw [ofJsonText, Json.parse_print layout (regular_toJson block h), height_toJson]
  by_cases hlevels : block.jsonLevels ≤ Json.maxOpen
  · rw [if_pos hlevels, if_pos hlevels]
    exact ofJson_toJson block
  · rw [if_neg hlevels, if_neg hlevels]

/-- Blocks that are nested, one in the other, to a depth. -/
def tower : Nat → Block
  | 0 => {}
  | depth + 1 => { children := [("a", tower depth)] }

theorem levels_tower (depth : Nat) : (tower depth).levels = depth := by
  induction depth with
  | zero => rfl
  | succ depth ih =>
    rw [tower, levels, levelsIn, ih]
    rfl

theorem keyed_tower (depth : Nat) : (tower depth).Keyed := by
  induction depth with
  | zero => exact ⟨by decide, trivial⟩
  | succ depth ih => exact ⟨⟨List.pairwise_singleton _ "a", List.nodup_nil⟩, ih, trivial⟩

theorem readable_tower (depth : Nat) : (tower depth).Everywhere (Readable false) := by
  have hselectors : Selector.Readable false ["a"] := by decide +kernel
  induction depth with
  | zero => exact ⟨by decide +kernel, trivial⟩
  | succ depth ih =>
    refine ⟨⟨by simp, by simp, by simp, hselectors, List.pairwise_singleton _ _⟩, ih, trivial⟩

/-- Blocks may be nested to a depth of 128 by the usual settings. -/
theorem parse_tower_css {depth : Nat} (h : depth ≤ 128) :
    Sheet.parse {} (tower depth).css = .ok (.keyed (tower depth)) := by
  have hlevels : (tower depth).levels ≤ ({} : Settings).maxDepth.toNat := by
    rw [levels_tower]
    exact h
  rw [Sheet.parse_keyed rfl, Settings.source_eq_self rfl,
    assembled_css hlevels (keyed_tower depth) (readable_tower depth)]
  rfl

/-- A block comes back from its JSON text, in either layout, up to the number of arrays and objects
that may be open at a time. No block of a style sheet that nests 63 blocks or more comes back,
though the usual settings let style sheets nest up to 128. -/
theorem ofJsonText_print_toJson :
    (∀ block : Block, block.Keyed → ∀ layout,
      ofJsonText ((Sheet.keyed block).toJson.print layout) =
        if block.jsonLevels ≤ 127 then .ok block else .error (.json .malformed)) ∧
    (∀ css block, Sheet.parse {} css = .ok (.keyed block) → 63 ≤ block.levels → ∀ layout,
      ofJsonText ((Sheet.keyed block).toJson.print layout) = .error (.json .malformed)) ∧
    ∀ depth ≤ 128, ∃ css block, Sheet.parse {} css = .ok (.keyed block) ∧ block.levels = depth := by
  refine ⟨fun block h layout => ofJsonText_print h layout, ?_, ?_⟩
  · intro css block hparse hdeep layout
    obtain ⟨-, -, -, hkeyed⟩ :=
      exists_listing_of_assembled (Sheet.assembled_of_parse hparse) false
    have hlevels := two_mul_levels_le block
    have htoo : ¬block.jsonLevels ≤ Json.maxOpen := by
      rw [Json.maxOpen]
      omega
    exact (ofJsonText_print hkeyed layout).trans (if_neg htoo)
  · intro depth hdepth
    exact ⟨_, _, parse_tower_css hdepth, levels_tower depth⟩

/-- A block with a property that was declared once, and arrays with one value and with none. -/
def singletons : Block where
  children :=
    [("a \"b\"",
      ⟨[], [("color", .once "\x01é"), ("content", .repeated ["x"]), ("z", .repeated [])], []⟩)]
  statements := ["@import \"a\\62\";"]

theorem ofJsonText_print_toJson_singletons :
    singletons.Keyed ∧ singletons.jsonLevels = 5 ∧
      ofJsonText ((Sheet.keyed singletons).toJson.print .indented) = .ok singletons ∧
      Sheet.parse {} (tower 63).css = .ok (.keyed (tower 63)) ∧
      ofJsonText ((Sheet.keyed (tower 63)).toJson.print) = .error (.json .malformed) := by
  have hkeyed : singletons.Keyed := by decide
  have hlevels : singletons.jsonLevels = 5 := by decide
  have htower : Sheet.parse {} (tower 63).css = .ok (.keyed (tower 63)) :=
    parse_tower_css (by decide)
  refine ⟨hkeyed, hlevels, ?_, htower, ?_⟩
  · exact (ofJsonText_print_toJson.1 singletons hkeyed .indented).trans (if_pos (by omega))
  · exact ofJsonText_print_toJson.2.1 _ _ htower (Nat.le_of_eq (levels_tower 63).symm) .compact

end Block

end StyleTree
