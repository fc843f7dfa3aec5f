import StyleTree.Proofs.Assembly.Lines
import StyleTree.Proofs.Block.Properties
import StyleTree.Proofs.Block.Tree
import StyleTree.Proofs.Selector.Keys

/-!
# Writing and reading keyed blocks

A keyed block comes back when it is written and read again, if its texts are each read as intended
on a line of their own and its shape is one that reading can lead to.
-/

namespace StyleTree

namespace Selector

/-- A key that comes after some others is read as a selector, which `split` leaves whole, and
differs from it by spaces that are needed: with one space less, the key is taken. -/
def ReadableAfter (split : Bool) (earlier : List String) (key : String) : Prop :=
  ∃ selector, Css.IsHeading key selector ∧ (split = true → pieces selector = [selector]) ∧
    ∃ spaces, key = padded selector spaces ∧
      (0 < spaces → padded selector (spaces - 1) ∈ earlier)

/-- Each key of a list is readable after the keys before it. -/
def Readable (split : Bool) (keys : List String) : Prop :=
  ∀ i, ∀ h : i < keys.length, ReadableAfter split (keys.take i) keys[i]

/-- Whether a key consists of a selector and spaces is decided by the difference of lengths. -/
instance (key selector : String) (P : Nat → Prop) [DecidablePred P] :
    Decidable (∃ spaces, key = padded selector spaces ∧ P spaces) :=
  decidable_of_iff
    (key = padded selector (key.toList.length - selector.toList.length) ∧
      P (key.toList.length - selector.toList.length)) <| by
    constructor
    · exact fun h => ⟨_, h⟩
    · rintro ⟨spaces, rfl, h⟩
      simpa using h

/-- Whether a list of tokens is one selector with a property can be decided. -/
instance (found : List Token) (P : String → Prop) [DecidablePred P] :
    Decidable (∃ selector, found = [.opening selector] ∧ P selector) :=
  match found with
  | [.opening selector] => decidable_of_iff (P selector) (by simp)
  | [] | [.comment _] | [.declaration _] | [.closing] | _ :: _ :: _ => isFalse (by simp)

instance (split : Bool) (earlier : List String) (key : String) :
    Decidable (ReadableAfter split earlier key) :=
  inferInstanceAs (Decidable (∃ selector, tokens (key ++ " \x7b") = [.opening selector] ∧
    (split = true → pieces selector = [selector]) ∧
      ∃ spaces, key = padded selector spaces ∧
        (0 < spaces → padded selector (spaces - 1) ∈ earlier)))

instance (split : Bool) (keys : List String) : Decidable (Readable split keys) :=
  inferInstanceAs (Decidable (∀ i, ∀ h : i < keys.length,
    ReadableAfter split (keys.take i) keys[i]))

theorem Readable.after {split : Bool} {earlier later : List String} {key : String}
    (h : Readable split (earlier ++ key :: later)) : ReadableAfter split earlier key := by
  have hkey := h earlier.length (by simp)
  simpa using hkey

/-- In a list of readable keys, those with fewer spaces come before a key. -/
theorem Readable.padded_mem {split : Bool} {selector : String}
    (hselector : Text.Trimmed selector.toList) {spaces : Nat} {earlier later : List String}
    (h : Readable split (earlier ++ padded selector spaces :: later)) :
    ∀ n < spaces, padded selector n ∈ earlier := by
  induction spaces generalizing earlier later with
  | zero => exact fun n hn => absurd hn (Nat.not_lt_zero n)
  | succ spaces ih =>
    obtain ⟨other, hheading, -, blanks, hpadded, hbefore⟩ := h.after
    obtain ⟨rfl, rfl⟩ := (padded_inj hselector hheading.trimmed).1 hpadded
    have hmem : padded selector spaces ∈ earlier := hbefore (Nat.zero_lt_succ spaces)
    -- The same holds of the key with one space less, which stands further to the left.
    obtain ⟨first, second, rfl⟩ := List.append_of_mem hmem
    rw [List.append_assoc, List.cons_append] at h
    intro n hn
    rcases Nat.lt_succ_iff_lt_or_eq.1 hn with hlt | rfl
    · exact List.mem_append_left _ (ih h n hlt)
    · exact hmem

/-- After the keys before it, a readable key is the one that its selector gets. -/
theorem Readable.freshKey_eq {split : Bool} {selector : String}
    (hselector : Text.Trimmed selector.toList) {spaces : Nat} {earlier later : List String}
    (h : Readable split (earlier ++ padded selector spaces :: later))
    (hnodup : (earlier ++ padded selector spaces :: later).Nodup) :
    freshKey earlier selector = padded selector spaces := by
  refine freshKey_eq_padded (h.padded_mem hselector) ?_
  intro hmem
  exact (List.nodup_append.1 hnodup).2.2 _ hmem _ (List.mem_cons_self ..) rfl

end Selector

namespace Block

/-- The conditions on one level of a block under which it is read back as it was written. -/
structure Readable (split : Bool) (block : Block) : Prop where
  /-- The values of a property are as declarations leave them. -/
  declarable : ∀ entry ∈ block.properties, entry.2.Declarable
  /-- Each value is read as one of its property. -/
  properties : ∀ entry ∈ block.properties, ∀ value ∈ entry.2.values, Css.IsProperty entry.1 value
  /-- Each statement is read as itself. -/
  statements : ∀ text ∈ block.statements, Css.IsStatement text
  /-- Each key is read as itself after the keys before it. -/
  keys : Selector.Readable split block.selectors
  /-- No other block comes after one for certain media. -/
  media : block.selectors.Pairwise fun earlier later =>
    Selector.isMedia earlier = true → Selector.isMedia later = true

instance (split : Bool) : DecidablePred (Readable split) := fun block =>
  decidable_of_iff
    ((∀ entry ∈ block.properties, entry.2.Declarable) ∧
      (∀ entry ∈ block.properties, ∀ value ∈ entry.2.values, Css.IsProperty entry.1 value) ∧
      (∀ text ∈ block.statements, Css.IsStatement text) ∧
      Selector.Readable split block.selectors ∧
      block.selectors.Pairwise fun earlier later =>
        Selector.isMedia earlier = true → Selector.isMedia later = true)
    ⟨fun ⟨hdeclarable, hproperties, hstatements, hkeys, hmedia⟩ =>
        ⟨hdeclarable, hproperties, hstatements, hkeys, hmedia⟩,
      fun h => ⟨h.declarable, h.properties, h.statements, h.keys, h.media⟩⟩

variable {split : Bool} {limit : UInt64} {enclosing : List (String × Block)} {renamings : Nat}

theorem read_statements {statements : List String} (h : ∀ text ∈ statements, Css.IsStatement text)
    (block : Block) (depth : Nat) (more : List Char) :
    Assembly.read (assembler split) limit ⟨block, enclosing, renamings⟩
        (statements.flatMap (fun text => Css.line depth text.toList) ++ more) =
      Assembly.read (assembler split) limit
        ⟨{ block with statements := block.statements ++ statements }, enclosing, renamings⟩
        more := by
  induction statements generalizing block with
  | nil =>
    rw [List.flatMap_nil, List.nil_append, List.append_nil]
    cases block
    rfl
  | cons text rest ih =>
    obtain ⟨htext, hrest⟩ := List.forall_mem_cons.1 h
    rw [List.flatMap_cons, List.append_assoc, Assembly.read_statement htext, ih hrest]
    simp [assembler, addDeclaration, addStatement]

theorem read_values {name : String} {values : List String}
    (h : ∀ value ∈ values, Css.IsProperty name value) (block : Block) (depth : Nat)
    (more : List Char) :
    Assembly.read (assembler split) limit ⟨block, enclosing, renamings⟩
        (values.flatMap (Css.property depth name) ++ more) =
      Assembly.read (assembler split) limit
        ⟨values.foldl (fun block value => block.addProperty name value) block, enclosing,
          renamings⟩ more := by
  induction values generalizing block with
  | nil => rfl
  | cons value rest ih =>
    obtain ⟨hvalue, hrest⟩ := List.forall_mem_cons.1 h
    rw [List.flatMap_cons, List.append_assoc, Assembly.read_property hvalue, ih hrest]
    rfl

theorem read_properties {properties : List (String × PropertyValue)}
    (hdeclarable : ∀ entry ∈ properties, entry.2.Declarable)
    (h : ∀ entry ∈ properties, ∀ value ∈ entry.2.values, Css.IsProperty entry.1 value)
    (block : Block) (hnodup : (Table.keys (block.properties ++ properties)).Nodup) (depth : Nat)
    (more : List Char) :
    Assembly.read (assembler split) limit ⟨block, enclosing, renamings⟩
        (properties.flatMap (fun (name, value) =>
          value.values.flatMap (Css.property depth name)) ++ more) =
      Assembly.read (assembler split) limit
        ⟨{ block with properties := block.properties ++ properties }, enclosing, renamings⟩
        more := by
  induction properties generalizing block with
  | nil =>
    rw [List.flatMap_nil, List.nil_append, List.append_nil]
    cases block
    rfl
  | cons entry rest ih =>
    obtain ⟨name, value⟩ := entry
    obtain ⟨hvalue, hvalues⟩ := List.forall_mem_cons.1 hdeclarable
    obtain ⟨hentry, hrest⟩ := List.forall_mem_cons.1 h
    -- No value of the property was read yet, so that its values make an entry of their own.
    have hnew : name ∉ Table.keys block.properties := by
      intro hmem
      rw [Table.keys, List.map_append] at hnodup
      exact (List.nodup_append.1 hnodup).2.2 _ hmem _ (List.mem_cons_self ..) rfl
    rw [List.flatMap_cons, List.append_assoc, read_values hentry,
      foldl_addProperty hnew hvalue.values_ne_nil, hvalue.ofValues_values,
      ih hvalues hrest _ (by simpa using hnodup)]
    simp

/-- A nested block goes under the key it was written with, after the blocks before it. -/
theorem nest_of_readable (block : Block) {key : String} {later : List String}
    (hreadable : Selector.Readable split (block.selectors ++ key :: later))
    (hnodup : (block.selectors ++ key :: later).Nodup) :
    ∃ selector, Css.IsHeading key selector ∧
      key.toList.count '{' ≤ selector.toList.count '{' ∧
      ∀ child, ((assembler split).nest selector child block).block =
        { block with children := block.children ++ [(key, child)] } := by
  obtain ⟨selector, hheading, hpieces, spaces, rfl, -⟩ := hreadable.after
  have hfresh := hreadable.freshKey_eq hheading.trimmed hnodup
  have hnames : (if split then Selector.pieces selector else [selector]) = [selector] := by
    cases split with
    | false => rfl
    | true => exact hpieces rfl
  refine ⟨selector, hheading, ?_, ?_⟩
  · rw [Selector.toList_padded, List.count_append, List.count_replicate]
    simp
  · intro child
    simp only [assembler, nest, hnames, nestUnderEach, nestUnder, hfresh]

/-! ### Whole blocks -/

mutual

/-- The lines of a block are read as the block. -/
theorem read_cssChars (depth : Nat) (breaks : Bool) :
    ∀ (block : Block) (enclosing : List (String × Block)) (renamings : Nat) (more : List Char),
      block.Everywhere (Readable split) → block.Everywhere HasDistinctKeys →
      enclosing.length + block.levels ≤ limit.toNat →
      ∃ inner, Assembly.read (assembler split) limit ⟨{}, enclosing, renamings⟩
          (block.cssChars depth breaks ++ more) =
        Assembly.read (assembler split) limit ⟨block, enclosing, inner⟩ more
  | ⟨children, properties, statements⟩, enclosing, renamings, more, hreadable, hdistinct,
      hlevels => by
    obtain ⟨hlevel, hchildren⟩ := hreadable
    obtain ⟨⟨hselectors, hnames⟩, hnested⟩ := hdistinct
    obtain ⟨inner, hread⟩ := read_childrenCssChars depth breaks children
      ⟨[], properties, statements⟩ enclosing renamings more hlevel.keys hselectors hchildren
      hnested hlevels
    refine ⟨inner, ?_⟩
    rw [cssChars, List.append_assoc, List.append_assoc, read_statements hlevel.statements,
      read_properties hlevel.declarable hlevel.properties _ (by simpa using hnames)]
    exact hread

/-- The lines of nested blocks add them to the block that is open, each under its own key. -/
theorem read_childrenCssChars (depth : Nat) (breaks : Bool) :
    ∀ (children : List (String × Block)) (block : Block) (enclosing : List (String × Block))
      (renamings : Nat) (more : List Char),
      Selector.Readable split (block.selectors ++ Table.keys children) →
      (block.selectors ++ Table.keys children).Nodup →
      EverywhereIn (Readable split) children → EverywhereIn HasDistinctKeys children →
      enclosing.length + levelsIn children ≤ limit.toNat →
      ∃ inner, Assembly.read (assembler split) limit ⟨block, enclosing, renamings⟩
          (childrenCssChars depth breaks children ++ more) =
        Assembly.read (assembler split) limit
          ⟨{ block with children := block.children ++ children }, enclosing, inner⟩ more
  | [], block, enclosing, renamings, more, _, _, _, _, _ => by
    refine ⟨renamings, ?_⟩
    rw [childrenCssChars, List.nil_append, List.append_nil]
    cases block
    rfl
  | (key, child) :: rest, block, enclosing, renamings, more, hkeys, hnodup, hreadable,
      hdistinct, hlevels => by
    obtain ⟨hchild, hrest⟩ := hreadable
    obtain ⟨hchildKeys, hrestKeys⟩ := hdistinct
    rw [levelsIn] at hlevels
    obtain ⟨selector, hheading, hcount, hnest⟩ := nest_of_readable block hkeys hnodup
    obtain ⟨inner, hbody⟩ := read_cssChars (depth + 1) false child ((selector, block) :: enclosing)
      renamings (Css.line depth ['}'] ++ ((if breaks && !rest.isEmpty then ['\n'] else []) ++
        (childrenCssChars depth breaks rest ++ more))) hchild hchildKeys
      (by simp only [List.length_cons]; omega)
    -- The body has been read as the child, which closing it neither sorts nor renames.
    have hcomplete : (assembler split).complete child = child :=
      mediaLast_eq_self (everywhere_iff.1 hchild).1.media
    have hlonger : block.selectors ++ Table.keys ((key, child) :: rest) =
        selectors { block with children := block.children ++ [(key, child)] } ++
          Table.keys rest := by
      simp [selectors, Table.keys]
    -- The rest is read with the child in its place, so that the keys up to there are the same.
    obtain ⟨last, hlast⟩ := read_childrenCssChars depth breaks rest
      { block with children := block.children ++ [(key, child)] } enclosing
      (inner + ((assembler split).nest selector child block).renamings) more
      (hlonger ▸ hkeys) (hlonger ▸ hnodup) hrest hrestKeys (by omega)
    refine ⟨last, ?_⟩
    rw [childrenCssChars, List.append_assoc, List.append_assoc,
      Assembly.read_enclosed hheading hcount (by omega) hbody, Assembly.read_blank, hcomplete,
      hnest child, hlast, List.append_assoc, List.singleton_append]

end

/-- A block that is written as a style sheet is read as the block. -/
theorem assembled_css {block : Block} (hlevels : block.levels ≤ limit.toNat)
    (hkeyed : block.Keyed) (hreadable : block.Everywhere (Readable split)) (depth : Nat)
    (breaks : Bool) :
    assembled (assembler split) limit (tokens (block.css depth breaks)) = .ok block := by
  obtain ⟨renamings, hread⟩ := read_cssChars depth breaks block [] 0 [] hreadable hkeyed
    (show 0 + block.levels ≤ limit.toNat by rwa [Nat.zero_add])
  have hcomplete : (assembler split).complete block = block :=
    mediaLast_eq_self (everywhere_iff.1 hreadable).1.media
  rw [List.append_nil, Assembly.read_nil] at hread
  rw [assembled_of_read (by rw [css, String.toList_ofList]; exact hread), hcomplete]

end Block

namespace Sheet

/-- A keyed block that is written as a style sheet comes back in all its parts when it is read, if
it is readable at every level and does not nest beyond the limit. -/
theorem parse_block_css {settings : Settings} (hordered : settings.ordered = false)
    (hstrip : settings.stripComments = false) {block : Block}
    (hlevels : block.levels ≤ settings.maxDepth.toNat) (hkeyed : block.Keyed)
    (hreadable : block.Everywhere (Block.Readable settings.split)) (depth : Nat)
    (breaks : Bool) : parse settings (block.css depth breaks) = .ok (.keyed block) := by
  have hlimit : ([] : List (String × Block)).length + block.levels ≤ settings.maxDepth.toNat := by
    simpa using hlevels
  obtain ⟨renamings, hread⟩ :=
    Block.read_cssChars depth breaks block [] 0 [] hreadable hkeyed hlimit
  have hchars : Assembly.read (Block.assembler settings.split) settings.maxDepth ⟨{}, [], 0⟩
      (block.css depth breaks).toList = .ok ⟨block, [], renamings⟩ := by
    rw [List.append_nil, Assembly.read_nil] at hread
    rw [Block.css, String.toList_ofList]
    exact hread
  have hcomplete : block.mediaLast = block :=
    Block.mediaLast_eq_self (Block.everywhere_iff.1 hreadable).1.media
  rw [parse_keyed hordered, settings.source_eq_self hstrip, assembled_of_read hchars]
  exact congrArg (fun block => Except.ok (keyed block)) hcomplete

/-- A block in which a selector comes three times and a property is declared three times, with
blocks for certain media at the end of the blocks around them. -/
def repetitions : Block where
  children :=
    [("a:hover", ⟨[("b", {}), ("@media print", {})], [("color", .once "red")], []⟩),
      ("a:hover ", ⟨[], [("content", .repeated ["\";\"", "b", "\";\""])], []⟩),
      ("a:hover  ", {}), ("@media print", ⟨[("a:hover", {})], [], []⟩)]
  properties := [("--x", .once "")]
  statements := ["@import \"a;b\";"]

theorem parse_repetitions_css :
    repetitions.Everywhere (Block.Readable true) ∧
      parse { split := true, maxDepth := 2 } (repetitions.css 1 true) =
        .ok (.keyed repetitions) := by
  have hreadable : repetitions.Everywhere (Block.Readable true) := by decide +kernel
  have hkeyed : repetitions.Keyed := by decide +kernel
  exact ⟨hreadable, parse_block_css rfl rfl (by decide +kernel) hkeyed hreadable 1 true⟩

end Sheet

end StyleTree
