import StyleTree.Assembler
import StyleTree.Table

/-!
# Keyed blocks

A block holds nested blocks by their selectors and properties by their names. A selector that comes
again gets a key of its own, with spaces at its end, so that no block is merged with another.
-/

namespace StyleTree

namespace Selector

/-- The selectors between the exposed commas of a list, trimmed. Empty ones are left out. -/
def pieces (selector : String) : List String :=
  (((Enclosure.segments ',' {} selector.toList).map Text.trim).filter (· ≠ [])).map String.ofList

/-- Whether a selector starts with `@media`, in letters of either case. -/
def isMedia (selector : String) : Bool :=
  (selector.toList.take 6).map Char.toLower == ['@', 'm', 'e', 'd', 'i', 'a']

/-- The key with as few spaces at its end as make it differ from all that are taken. A candidate
that is taken is crossed off, since none of the longer candidates is equal to it. -/
def freshKey (taken : List String) (key : String) : String :=
  if key ∈ taken then freshKey (taken.erase key) (key.push ' ') else key
termination_by taken.length
decreasing_by
  rw [List.length_erase_of_mem ‹_›]
  have := List.length_pos_of_mem ‹key ∈ taken›
  omega

end Selector

/-- What a property was declared as within one block. -/
inductive PropertyValue where
  /-- The value of a property that was declared once. -/
  | once (value : String)
  /-- The values of a property that was declared several times, in order. -/
  | repeated (values : List String)
deriving DecidableEq, Repr

namespace PropertyValue

/-- The value with one more declaration after it. -/
def push (added : String) : PropertyValue → PropertyValue
  | .once value => .repeated [value, added]
  | .repeated values => .repeated (values ++ [added])

/-- All declared values, in order. -/
def values : PropertyValue → List String
  | .once value => [value]
  | .repeated values => values

/-- The value declared last, which is the one that counts. -/
def last? (value : PropertyValue) : Option String :=
  value.values.getLast?

/-- The value of a property that was declared once. -/
def once? : PropertyValue → Option String
  | .once value => some value
  | .repeated _ => none

/-- The number of declared values. -/
def size (value : PropertyValue) : Nat :=
  value.values.length

/-- Whether there is no value at all. -/
def isEmpty (value : PropertyValue) : Bool :=
  value.values.isEmpty

end PropertyValue

/-- The content of a style sheet or of one of its blocks. -/
structure Block where
  /-- The blocks nested in this one, by the keys made of their selectors. -/
  children : List (String × Block) := []
  /-- What is declared, by name. -/
  properties : List (String × PropertyValue) := []
  /-- The declarations without a name. -/
  statements : List String := []
deriving Repr, Inhabited

mutual

/-- Equality of blocks, with all keys in the same order, can be decided. -/
def Block.decEq : (left right : Block) → Decidable (left = right)
  | ⟨children, properties, statements⟩, ⟨others, declared, lines⟩ =>
    match Block.decEqAll children others with
    | isTrue h => decidable_of_iff (properties = declared ∧ statements = lines) (by simp [h])
    | isFalse h => isFalse (by simp [h])

/-- Equality of nested blocks with their keys can be decided. -/
def Block.decEqAll : (left right : List (String × Block)) → Decidable (left = right)
  | [], [] => isTrue rfl
  | (key, child) :: rest, (other, block) :: others =>
    match Block.decEq child block, Block.decEqAll rest others with
    | isTrue h, isTrue hrest => decidable_of_iff (key = other) (by simp [h, hrest])
    | isFalse h, _ => isFalse (by simp [h])
    | _, isFalse h => isFalse (by simp [h])
  | [], _ :: _ => isFalse (by simp)
  | _ :: _, [] => isFalse (by simp)

end

instance : DecidableEq Block :=
  Block.decEq

namespace Block

/-- Whether the block holds nothing. -/
def isEmpty (block : Block) : Bool :=
  block.children.isEmpty && block.properties.isEmpty && block.statements.isEmpty

/-- The keys of the nested blocks, in order. -/
def selectors (block : Block) : List String :=
  Table.keys block.children

/-- The block nested under a key. -/
def child? (block : Block) (key : String) : Option Block :=
  Table.find? block.children key

/-- What a property was declared as. -/
def property? (block : Block) (name : String) : Option PropertyValue :=
  Table.find? block.properties name

/-- The block with `child` nested under `key`, in place of what was there. -/
def setChild (block : Block) (key : String) (child : Block) : Block :=
  { block with children := Table.insert key child block.children }

/-- The block with a property declared as `value`, in place of what it was declared as. -/
def setProperty (block : Block) (name : String) (value : PropertyValue) : Block :=
  { block with properties := Table.insert name value block.properties }

/-- The block with a property declared once more. -/
def addProperty (block : Block) (name value : String) : Block :=
  block.setProperty name <|
    match block.property? name with
    | some declared => declared.push value
    | none => .once value

/-- The block with one more statement at its end. -/
def addStatement (block : Block) (text : String) : Block :=
  { block with statements := block.statements ++ [text] }

/-- The block with one more declaration. -/
def addDeclaration (block : Block) : Declaration → Block
  | .property name value => block.addProperty name value
  | .statement text => block.addStatement text

/-- The block with the blocks for certain media after all others, both kinds in their order. -/
def mediaLast (block : Block) : Block :=
  { block with
    children :=
      block.children.filter (fun (key, _) => !Selector.isMedia key) ++
        block.children.filter (fun (key, _) => Selector.isMedia key) }

/-! ### Descent -/

/-- The block that a path of keys leads to. -/
def find? : Block → List String → Option Block
  | block, [] => some block
  | block, key :: path => (block.child? key).bind fun child => child.find? path

/-- The block with `replacement` at the end of a path of keys, if the path leads to a block. -/
def replace? : Block → List String → Block → Option Block
  | _, [], replacement => some replacement
  | block, key :: path, replacement =>
    (block.child? key).bind fun child =>
      (child.replace? path replacement).map (block.setChild key)

/-! ### Equality up to the order of keys -/

mutual

/-- Whether two blocks hold the same. The order of statements and values counts, that of nested
blocks and properties does not. -/
def same : Block → Block → Bool
  | ⟨children, properties, statements⟩, other =>
    children.length == other.children.length && sameChildren children other.children &&
      Table.same (· == ·) properties other.properties && statements == other.statements

/-- Whether every nested block is the same as the one that the other table has under its key. -/
def sameChildren : List (String × Block) → List (String × Block) → Bool
  | [], _ => true
  | (key, child) :: rest, other =>
    (Table.find? other key).any (same child) && sameChildren rest other

end

/-! ### Assembly -/

/-- The block with `child` nested under the first free key for one selector. -/
def nestUnder (block child : Block) (selector : String) : Nested Block :=
  let key := Selector.freshKey block.selectors selector
  let renamed := key != selector
  { block := { block with children := block.children ++ [(key, child)] }
    events := if renamed then [.renamed selector key] else []
    renamings := if renamed then 1 else 0 }

/-- The block with `child` nested under each of several selectors. -/
def nestUnderEach : Block → Block → List String → Nested Block
  | block, _, [] => ⟨block, [], 0⟩
  | block, child, selector :: rest =>
    let first := block.nestUnder child selector
    let others := first.block.nestUnderEach child rest
    ⟨others.block, first.events ++ others.events, first.renamings + others.renamings⟩

/-- The block with `child` nested under its selector or, if lists are to be split, under each
selector of the list. A list without selectors drops the block. -/
def nest (split : Bool) (selector : String) (child block : Block) : Nested Block :=
  match if split then Selector.pieces selector else [selector] with
  | [] => ⟨block, [.noSelector selector], 0⟩
  | selectors => block.nestUnderEach child selectors

/-- A keyed block drops comments and sorts its nested blocks when it is complete. -/
def assembler (split : Bool) : Assembler Block where
  empty := {}
  addComment block _ := block
  addDeclaration := addDeclaration
  nest := nest split
  complete := mediaLast

end Block

end StyleTree
