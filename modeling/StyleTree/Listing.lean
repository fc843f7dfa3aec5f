import StyleTree.Assembler
import StyleTree.Json

/-!
# Listings

A listing keeps everything in a block in the order of the style sheet. Nothing is keyed, so nothing
is merged or renamed.
-/

namespace StyleTree

/-- One item of a listing. -/
inductive Item where
  /-- A comment with its delimiters. -/
  | comment (text : String)
  /-- A nested block. -/
  | rule (name : String) (body : List Item)
  /-- A property with its value. -/
  | property (name value : String)
  /-- A declaration without a name, with its semicolon. -/
  | statement (text : String)
deriving Repr, Inhabited

/-- The content of a style sheet or block, in order. -/
abbrev Listing :=
  List Item

mutual

/-- Equality of items can be decided. -/
def Item.decEq : (left right : Item) → Decidable (left = right)
  | .comment text, .comment other =>
    decidable_of_iff (text = other) (by simp)
  | .rule name body, .rule other content =>
    match Item.decEqAll body content with
    | isTrue h => decidable_of_iff (name = other) (by simp [h])
    | isFalse h => isFalse (by simp [h])
  | .property name value, .property other content =>
    decidable_of_iff (name = other ∧ value = content) (by simp)
  | .statement text, .statement other =>
    decidable_of_iff (text = other) (by simp)
  | .comment _, .rule .. | .comment _, .property .. | .comment _, .statement _
  | .rule .., .comment _ | .rule .., .property .. | .rule .., .statement _
  | .property .., .comment _ | .property .., .rule .. | .property .., .statement _
  | .statement _, .comment _ | .statement _, .rule .. | .statement _, .property .. =>
    isFalse (by simp)

/-- Equality of listings can be decided. -/
def Item.decEqAll : (left right : List Item) → Decidable (left = right)
  | [], [] => isTrue rfl
  | item :: rest, other :: others =>
    match Item.decEq item other, Item.decEqAll rest others with
    | isTrue h, isTrue hrest => isTrue (by rw [h, hrest])
    | isFalse h, _ => isFalse (by simp [h])
    | _, isFalse h => isFalse (by simp [h])
  | [], _ :: _ => isFalse (by simp)
  | _ :: _, [] => isFalse (by simp)

end

instance : DecidableEq Item :=
  Item.decEq

namespace Item

/-- The name of a rule or property. -/
def name? : Item → Option String
  | .rule name _ => some name
  | .property name _ => some name
  | .comment _ => none
  | .statement _ => none

/-- The content of a rule. -/
def body? : Item → Option Listing
  | .rule _ body => some body
  | .comment _ => none
  | .property .. => none
  | .statement _ => none

/-- Whether the item is a nested block. -/
def isRule (item : Item) : Bool :=
  item.body?.isSome

/-- The item that a declaration makes. -/
def ofDeclaration : Declaration → Item
  | .property name value => .property name value
  | .statement text => .statement text

end Item

namespace Listing

/-- The nested blocks with their names, in order. -/
def rules (listing : Listing) : List (String × Listing) :=
  listing.filterMap fun
    | .rule name body => some (name, body)
    | _ => none

/-! ### Descent -/

/-- The content of the rule that a path of positions leads to. -/
def find? : Listing → List Nat → Option Listing
  | listing, [] => some listing
  | listing, index :: path =>
    (listing[index]?.bind Item.body?).bind fun body => find? body path

/-- The listing with `replacement` as the content of the rule at the end of a path of positions,
if the path leads from rule to rule. -/
def replace? : Listing → List Nat → Listing → Option Listing
  | _, [], replacement => some replacement
  | listing, index :: path, replacement =>
    match listing[index]? with
    | some (.rule name body) =>
      (replace? body path replacement).map fun body => listing.set index (.rule name body)
    | _ => none

/-! ### Assembly -/

/-- A listing takes in everything at its end, comments only if they are to be kept. -/
def assembler (keepComments : Bool) : Assembler Listing where
  empty := []
  addComment listing text := if keepComments then listing ++ [.comment text] else listing
  addDeclaration listing declaration := listing ++ [.ofDeclaration declaration]
  nest name body listing := ⟨listing ++ [.rule name body], [], 0⟩
  complete listing := listing

/-! ### JSON values -/

mutual

/-- The value of one item. -/
def itemJson : Item → Json
  | .comment text => .string text
  | .statement text => .string text
  | .rule name body =>
    .object
      [("name", .string name), ("value", .object (membersFrom 0 body)), ("type", .string "rule")]
  | .property name value =>
    .object [("name", .string name), ("value", .string value), ("type", .string "attr")]

/-- The values of items under their positions, of which the first is `index`. -/
def membersFrom (index : Nat) : List Item → List (String × Json)
  | [] => []
  | item :: rest => (toString index, itemJson item) :: membersFrom (index + 1) rest

end

/-- The value of a listing. -/
def toJson (listing : Listing) : Json :=
  .object (membersFrom 0 listing)

end Listing

end StyleTree
