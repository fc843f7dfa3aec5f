namespace StyleTree.Json

/-- A number as it is written: an optional minus sign, digits without a leading zero, and
optional digits after a point and after an `e`. -/
structure Numeral where
  /-- Whether there is a minus sign. -/
  negative : Bool := false
  /-- The digits before the point, of which there is at least one. -/
  whole : List Char
  /-- The digits after the point; none if there is no point. -/
  fraction : List Char := []
  /-- Whether the exponent has a minus sign, and its digits, if there is an exponent. -/
  exponent : Option (Bool × List Char) := none
deriving DecidableEq, Repr

namespace Numeral

/-- The numeral of a natural number. -/
def ofNat (n : Nat) : Numeral :=
  { whole := Nat.toDigits 10 n }

/-- The natural number that a numeral stands for. A minus sign, a point or an exponent makes it
stand for none, even if its value is one. -/
def toNat? (numeral : Numeral) : Option Nat :=
  if numeral.negative ∨ numeral.fraction ≠ [] ∨ numeral.exponent ≠ none then none
  else some (Nat.ofDigitChars 10 numeral.whole 0)

/-- The text of a numeral. -/
def chars (numeral : Numeral) : List Char :=
  (if numeral.negative then ['-'] else []) ++ numeral.whole ++
    (if numeral.fraction = [] then [] else '.' :: numeral.fraction) ++
    match numeral.exponent with
    | none => []
    | some (negative, digits) => 'e' :: (if negative then '-' :: digits else digits)

/-- A numeral stands for the number it was made of. -/
theorem toNat?_ofNat (n : Nat) : (ofNat n).toNat? = some n := by
  simp [ofNat, toNat?]

end Numeral

/-! ### Magnitude

A numeral that is kept has to be finite as a binary floating-point number of 53 significant bits. It
is approximated as a whole number of at most 64 bits times a power of ten: digits that no longer fit
are dropped, and each one dropped before the point counts as a zero. -/

/-- A number rounded to its `bits` leading bits; halfway between two such numbers, to the one
whose last leading bit is zero. -/
def roundBits (bits n : Nat) : Nat :=
  if n < Nat.pow 2 bits then n
  else
    -- The weight of the last bit that is kept.
    let unit := Nat.pow 2 (n.log2 + 1 - bits)
    let below := n / unit
    let rest := n % unit
    if 2 * rest < unit ∨ (2 * rest = unit ∧ below % 2 = 0) then below * unit
    else (below + 1) * unit

namespace Numeral

/-- A number with one more decimal digit, if 64 bits hold it. -/
def appendDigit? (n : Nat) (digit : Char) : Option Nat :=
  let longer := n * 10 + (digit.toNat - 0x30)
  if longer < Nat.pow 2 64 then some longer else none

/-- The number that the first digits before the point make, as many as fit, and the count of
those after them. -/
def wholePart : Nat → List Char → Nat × Nat
  | n, [] => (n, 0)
  | n, digit :: rest =>
    match appendDigit? n digit with
    | some longer => wholePart longer rest
    | none => (n, rest.length + 1)

/-- A digit that fits is added. -/
theorem wholePart_cons {n longer : Nat} {digit : Char} (h : appendDigit? n digit = some longer)
    (rest : List Char) : wholePart n (digit :: rest) = wholePart longer rest := by
  have hstep : wholePart n (digit :: rest) =
      match appendDigit? n digit with
      | some longer => wholePart longer rest
      | none => (n, rest.length + 1) := rfl
  rw [hstep, h]

/-- A number with the digits after the point added, as many as fit, and their count. -/
def fractionPart : Nat → List Char → Nat × Nat
  | n, [] => (n, 0)
  | n, digit :: rest =>
    match appendDigit? n digit with
    | some longer =>
      let (result, count) := fractionPart longer rest
      (result, count + 1)
    | none => (n, 0)

/-- The exponent that is written after an `e`. -/
def writtenExponent (numeral : Numeral) : Int :=
  match numeral.exponent with
  | none => 0
  | some (negative, digits) =>
    let size := Nat.ofDigitChars 10 digits 0
    if negative then -size else size

/-- The whole number and the power of ten whose product approximates a numeral, without its
sign. -/
def scaled (numeral : Numeral) : Nat × Int :=
  let (whole, dropped) := wholePart 0 numeral.whole
  let (significand, places) := fractionPart whole numeral.fraction
  (significand, numeral.writtenExponent + dropped - places)

/-- Whether a numeral is finite: whether it rounds to less than two to the power 1024. The
largest number of 53 bits below that is followed by half a unit that still rounds down. -/
def isFinite (numeral : Numeral) : Bool :=
  let (significand, exponent) := numeral.scaled
  significand == 0 || exponent < 0 ||
    (exponent ≤ 308 &&
      roundBits 53 significand * roundBits 53 (Nat.pow 10 exponent.toNat) <
        (Nat.pow 2 54 - 1) * Nat.pow 2 970)

end Numeral

end StyleTree.Json
