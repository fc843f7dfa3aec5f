import StyleTree.Json.Parser

/-!
# The grammar of JSON texts

Which texts are JSON values is said here by rules, without a reader. A string is the spelling of a
text if its escapes make one, so that halves of characters come in pairs.
-/

namespace StyleTree.Json

/-! ### Strings -/

/-- Whether a character stands for itself in a string. -/
def isPlain (c : Char) : Bool :=
  c != '"' && c != '\\' && 0x20 ≤ c.toNat

/-- Whether a text is the four hexadecimal digits of a number. -/
def IsHex (digits : List Char) (unit : Nat) : Prop :=
  fourDigits? digits = some (unit, [])

instance (digits : List Char) (unit : Nat) : Decidable (IsHex digits unit) :=
  inferInstanceAs (Decidable (fourDigits? digits = some (unit, [])))

/-- The character of which two numbers are the halves. -/
def joinHalves (leading trailing : Nat) : Char :=
  Char.ofNat (0x10000 + (leading - 0xD800) * 0x400 + (trailing - 0xDC00))

/-- A text and one of the ways in which it can be written between quotes. -/
inductive Spells : List Char → List Char → Prop
  | nil : Spells [] []
  | plain {text body : List Char} {c : Char} (hc : isPlain c = true) (hrest : Spells text body) :
      Spells (c :: text) (c :: body)
  | letter {text body : List Char} {c meant : Char} (hc : escaped? c = some meant)
      (hrest : Spells text body) : Spells (meant :: text) ('\\' :: c :: body)
  | unit {text body digits : List Char} {unit : Nat} (hdigits : IsHex digits unit)
      (hleading : isLeading unit = false) (htrailing : isTrailing unit = false)
      (hrest : Spells text body) :
      Spells (Char.ofNat unit :: text) ('\\' :: 'u' :: (digits ++ body))
  | pair {text body high low : List Char} {leading trailing : Nat} (hhigh : IsHex high leading)
      (hleading : isLeading leading = true) (hlow : IsHex low trailing)
      (htrailing : isTrailing trailing = true) (hrest : Spells text body) :
      Spells (joinHalves leading trailing :: text)
        ('\\' :: 'u' :: (high ++ '\\' :: 'u' :: (low ++ body)))

/-- What may stand between the quotes of a string, be it the spelling of a text or not. -/
inductive IsStringBody : List Char → Prop
  | nil : IsStringBody []
  | plain {body : List Char} {c : Char} (hc : isPlain c = true) (hrest : IsStringBody body) :
      IsStringBody (c :: body)
  | letter {body : List Char} {c meant : Char} (hc : escaped? c = some meant)
      (hrest : IsStringBody body) : IsStringBody ('\\' :: c :: body)
  | unit {body digits : List Char} {unit : Nat} (hdigits : IsHex digits unit)
      (hrest : IsStringBody body) : IsStringBody ('\\' :: 'u' :: (digits ++ body))

/-! ### Numbers -/

/-- One digit or more. -/
def IsDigits (digits : List Char) : Prop :=
  digits ≠ [] ∧ digits.all Char.isDigit = true

/-- Digits of which the first one is not zero, unless it is the only one. -/
def IsWhole (digits : List Char) : Prop :=
  IsDigits digits ∧ (digits.head? = some '0' → digits = ['0'])

instance : DecidablePred IsDigits :=
  fun _ => instDecidableAnd

instance : DecidablePred IsWhole :=
  fun _ => instDecidableAnd

/-- Nothing, or a point and digits. -/
inductive IsFraction : List Char → Prop
  | none : IsFraction []
  | some {digits : List Char} (hdigits : IsDigits digits) : IsFraction ('.' :: digits)

/-- Nothing, or an `e` in either case and digits that may have a sign. -/
inductive IsExponent : List Char → Prop
  | none : IsExponent []
  | some {mark : Char} {sign digits : List Char} (hmark : mark = 'e' ∨ mark = 'E')
      (hsign : sign = [] ∨ sign = ['+'] ∨ sign = ['-']) (hdigits : IsDigits digits) :
      IsExponent (mark :: (sign ++ digits))

/-- The text of a number. -/
inductive IsNumeral : List Char → Prop
  | intro {sign whole fraction exponent : List Char} (hsign : sign = [] ∨ sign = ['-'])
      (hwhole : IsWhole whole) (hfraction : IsFraction fraction)
      (hexponent : IsExponent exponent) :
      IsNumeral (sign ++ (whole ++ (fraction ++ exponent)))

/-! ### Values -/

/-- What the rules of the grammar are about. -/
inductive Symbol where
  | value
  /-- A value with blanks around it. -/
  | element
  /-- One element or more, with commas between them. -/
  | elements
  /-- A key and an element. -/
  | member
  /-- One member or more, with commas between them. -/
  | members

/-- The texts of values and of what they are made of. -/
inductive Derives : Symbol → List Char → Prop
  | word {word : List Char}
      (hword : word ∈ [['n', 'u', 'l', 'l'], ['t', 'r', 'u', 'e'], ['f', 'a', 'l', 's', 'e']]) :
      Derives .value word
  | numeral {text : List Char} (htext : IsNumeral text) : Derives .value text
  | string {body : List Char} (hbody : IsStringBody body) :
      Derives .value ('"' :: (body ++ ['"']))
  | emptyArray {blanks : List Char} (hblanks : blanks.all isBlank = true) :
      Derives .value ('[' :: (blanks ++ [']']))
  | array {items : List Char} (hitems : Derives .elements items) :
      Derives .value ('[' :: (items ++ [']']))
  | emptyObject {blanks : List Char} (hblanks : blanks.all isBlank = true) :
      Derives .value ('\x7b' :: (blanks ++ ['\x7d']))
  | object {members : List Char} (hmembers : Derives .members members) :
      Derives .value ('\x7b' :: (members ++ ['\x7d']))
  | element {before text after : List Char} (hbefore : before.all isBlank = true)
      (htext : Derives .value text) (hafter : after.all isBlank = true) :
      Derives .element (before ++ (text ++ after))
  | lastElement {text : List Char} (htext : Derives .element text) : Derives .elements text
  | nextElement {text rest : List Char} (htext : Derives .element text)
      (hrest : Derives .elements rest) : Derives .elements (text ++ ',' :: rest)
  | member {before body after text : List Char} (hbefore : before.all isBlank = true)
      (hbody : IsStringBody body) (hafter : after.all isBlank = true)
      (htext : Derives .element text) :
      Derives .member (before ++ '"' :: (body ++ '"' :: (after ++ ':' :: text)))
  | lastMember {text : List Char} (htext : Derives .member text) : Derives .members text
  | nextMember {text rest : List Char} (htext : Derives .member text)
      (hrest : Derives .members rest) : Derives .members (text ++ ',' :: rest)

/-! ### Objects with given members -/

/-- The text of a member with a key and the text of a value. -/
inductive IsMember (key : String) (value : List Char) : List Char → Prop
  | intro {before body colon space after : List Char} (hbefore : before.all isBlank = true)
      (hbody : Spells key.toList body) (hcolon : colon.all isBlank = true)
      (hspace : space.all isBlank = true) (hvalue : Derives .value value)
      (hafter : after.all isBlank = true) :
      IsMember key value
        (before ++ '"' :: (body ++ '"' :: (colon ++ ':' :: (space ++ (value ++ after)))))

theorem IsMember.derives {key : String} {value text : List Char} (h : IsMember key value text) :
    Derives .value value := by
  cases h
  assumption

/-- The text of one member or more, given by their keys and the texts of their values. -/
inductive IsMembers : Table (List Char) → List Char → Prop
  | last {key : String} {value text : List Char} (htext : IsMember key value text) :
      IsMembers [(key, value)] text
  | next {key : String} {value text rest : List Char} {members : Table (List Char)}
      (htext : IsMember key value text) (hrest : IsMembers members rest) :
      IsMembers ((key, value) :: members) (text ++ ',' :: rest)

/-- The whole text of an object, given by the keys of its members and the texts of their values. -/
inductive IsObjectText : Table (List Char) → List Char → Prop
  | empty {before blanks after : List Char} (hbefore : before.all isBlank = true)
      (hblanks : blanks.all isBlank = true) (hafter : after.all isBlank = true) :
      IsObjectText [] (before ++ '\x7b' :: (blanks ++ '\x7d' :: after))
  | object {before text after : List Char} {members : Table (List Char)}
      (hbefore : before.all isBlank = true) (htext : IsMembers members text)
      (hafter : after.all isBlank = true) :
      IsObjectText members (before ++ '\x7b' :: (text ++ '\x7d' :: after))

end StyleTree.Json
