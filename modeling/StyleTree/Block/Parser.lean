import StyleTree.Block
import StyleTree.Event
import StyleTree.Json.Parser

/-!
# Keyed blocks as JSON values

A value is read as a block if it and all values nested as blocks are objects with nested blocks or
properties; what else they hold has to be of the right kind or unknown.
-/

namespace StyleTree

/-- A value by itself for a property that was declared once, otherwise an array. -/
def PropertyValue.toJson : PropertyValue → Json
  | .once value => .string value
  | .repeated values => .array (values.map .string)

/-- What a property was declared as, from a string or an array of strings. -/
def PropertyValue.ofJson? : Json → Option PropertyValue
  | .string value => some (.once value)
  | value => value.strings?.map .repeated

namespace Block

mutual

/-- The value of a block. -/
def toJson : Block → Json
  | ⟨children, properties, statements⟩ =>
    .object <|
      [("children", .object (childrenJson children)),
        ("attributes", .object (properties.map fun (name, value) => (name, value.toJson)))] ++
      if statements.isEmpty then [] else [("statements", .array (statements.map .string))]

/-- The values of nested blocks under their keys. -/
def childrenJson : List (String × Block) → List (String × Json)
  | [] => []
  | (key, child) :: rest => (key, child.toJson) :: childrenJson rest

end

/-! ### Places that are no blocks -/

/-- Whether an object has what every block has. -/
def hasContent (members : List (String × Json)) : Bool :=
  Table.contains members "attributes" || Table.contains members "children"

mutual

/-- The first place, in the order of keys and outer places before inner ones, where a value is
no block: it is no object, it has neither properties nor nested blocks, or what should hold
the nested blocks is no object. -/
def misfit? : Json → Option Misfit
  | .object members => if hasContent members then misfitIn? members else some ⟨[], false⟩
  | _ => some ⟨[], false⟩

/-- The first such place in what the members of a block have as nested blocks. -/
def misfitIn? : List (String × Json) → Option Misfit
  | [] => none
  | (name, value) :: rest =>
    if name = "children" then
      match value with
      | .object children => misfitAmong? children
      | _ => some ⟨[], true⟩
    else misfitIn? rest

/-- The first such place among nested blocks with their keys. -/
def misfitAmong? : List (String × Json) → Option Misfit
  | [] => none
  | (key, child) :: rest =>
    match misfit? child with
    | some misfit => some { misfit with keys := key :: misfit.keys }
    | none => misfitAmong? rest

end

/-! ### Conversion -/

/-- What the member `attributes` holds, if it is an object of strings and arrays of strings. It
may be missing. -/
def propertiesIn? (members : List (String × Json)) : Option (List (String × PropertyValue)) :=
  match Table.find? members "attributes" with
  | none => some []
  | some value => do
    (← value.members?).mapM fun (name, value) => do
      return (name, ← PropertyValue.ofJson? value)

/-- What the member `statements` holds, if it is an array of strings. It may be missing. -/
def statementsIn? (members : List (String × Json)) : Option (List String) :=
  match Table.find? members "statements" with
  | none => some []
  | some value => value.strings?

mutual

/-- The block of an object, if all that it holds for a block is of the right kind. -/
def ofJson? : Json → Option Block
  | .object members => do
    let children ← childrenIn? members
    let properties ← propertiesIn? members
    let statements ← statementsIn? members
    return ⟨children, properties, statements⟩
  | _ => none

/-- The blocks that the member `children` holds. It may be missing. -/
def childrenIn? : List (String × Json) → Option (List (String × Block))
  | [] => some []
  | (name, value) :: rest =>
    if name = "children" then
      match value with
      | .object children => childrenOf? children
      | _ => none
    else childrenIn? rest

/-- The blocks of several values, under the same keys. -/
def childrenOf? : List (String × Json) → Option (List (String × Block))
  | [] => some []
  | (key, value) :: rest => do
    let child ← ofJson? value
    let others ← childrenOf? rest
    return (key, child) :: others

end

/-- The block of a value. A place that is no block at all wins over any fault in what blocks
hold. -/
def ofJson (value : Json) : Except Error Block :=
  match misfit? value with
  | some misfit => .error (.notABlock misfit)
  | none =>
    match ofJson? value with
    | some block => .ok block
    | none => .error (.json .unsuitable)

/-- The block that a JSON text describes. -/
def ofJsonText (text : String) : Except Error Block :=
  match Json.parse text with
  | .error fault => .error (.json fault)
  | .ok value => ofJson value

end Block

end StyleTree
