import StyleTree.Json
import StyleTree.Json.Numeral

namespace StyleTree.Json

/-- The digits at the start of a text, of which there has to be one. -/
def readDigits (use : Use) (text : List Char) : Except Fault (List Char × List Char) :=
  match text with
  | [] => .error (if use = .kept then .cutShort else .malformed)
  | c :: rest =>
    if c.isDigit then .ok (c :: rest.takeWhile Char.isDigit, rest.dropWhile Char.isDigit)
    else .error .malformed

/-- The digits before the point. A zero has to be the only one. -/
def readWhole (use : Use) (text : List Char) : Except Fault (List Char × List Char) :=
  match readDigits use text with
  | .error fault => .error fault
  | .ok ('0' :: _ :: _, _) => .error .malformed
  | .ok result => .ok result

/-- The digits after the point, if there is a point. -/
def readFraction (use : Use) : List Char → Except Fault (List Char × List Char)
  | '.' :: rest => readDigits use rest
  | text => .ok ([], text)

/-- The sign of an exponent, if it has one, and the rest of it. -/
def readSign : List Char → Bool × List Char
  | '-' :: rest => (true, rest)
  | '+' :: rest => (false, rest)
  | text => (false, text)

/-- The exponent of a number whose `e` was read. -/
def readExponentDigits (use : Use) (text : List Char) :
    Except Fault (Option (Bool × List Char) × List Char) :=
  let (negative, rest) := readSign text
  (readDigits use rest).map fun (digits, rest) => (some (negative, digits), rest)

/-- The exponent, if there is one. -/
def readExponent (use : Use) : List Char → Except Fault (Option (Bool × List Char) × List Char)
  | 'e' :: rest => readExponentDigits use rest
  | 'E' :: rest => readExponentDigits use rest
  | text => .ok (none, text)

/-- The numeral at the start of a text, without its minus sign. -/
def readUnsigned (use : Use) (text : List Char) : Except Fault (Numeral × List Char) := do
  let (whole, rest) ← readWhole use text
  let (fraction, rest) ← readFraction use rest
  let (exponent, rest) ← readExponent use rest
  return ({ whole, fraction, exponent }, rest)

/-- The numeral at the start of a text. -/
def readNumeral (use : Use) : List Char → Except Fault (Numeral × List Char)
  | '-' :: rest =>
    (readUnsigned use rest).map fun (numeral, rest) => ({ numeral with negative := true }, rest)
  | text => readUnsigned use text

/-- The number at the start of a text. One that is kept has to be finite. -/
def readNumber (use : Use) (text : List Char) : Except Fault (Numeral × List Char) :=
  match readNumeral use text with
  | .error fault => .error fault
  | .ok (numeral, rest) =>
    if use = .kept ∧ numeral.isFinite = false then .error .malformed else .ok (numeral, rest)

theorem length_of_readDigits {use : Use} {text digits rest : List Char}
    (h : readDigits use text = .ok (digits, rest)) : rest.length < text.length := by
  unfold readDigits at h
  split at h
  · simp at h
  · rename_i c tail
    split at h
    · simp only [Except.ok.injEq, Prod.mk.injEq] at h
      have := (List.dropWhile_suffix (l := tail) Char.isDigit).length_le
      rw [← h.2, List.length_cons]
      omega
    · simp at h

theorem length_of_readWhole {use : Use} {text digits rest : List Char}
    (h : readWhole use text = .ok (digits, rest)) : rest.length < text.length := by
  unfold readWhole at h
  split at h
  · simp at h
  · simp at h
  · rename_i hdigits
    exact length_of_readDigits (hdigits.trans h)

theorem length_of_readFraction {use : Use} {text digits rest : List Char}
    (h : readFraction use text = .ok (digits, rest)) : rest.length ≤ text.length := by
  unfold readFraction at h
  split at h
  · have := length_of_readDigits h
    simp only [List.length_cons]
    omega
  · simp_all

theorem length_readSign (text : List Char) : (readSign text).2.length ≤ text.length := by
  unfold readSign
  split <;> simp

theorem length_of_readExponentDigits {use : Use} {text rest : List Char}
    {exponent : Option (Bool × List Char)}
    (h : readExponentDigits use text = .ok (exponent, rest)) : rest.length ≤ text.length := by
  have hsign := length_readSign text
  unfold readExponentDigits at h
  cases hdigits : readDigits use (readSign text).2 with
  | error => simp [hdigits, Except.map] at h
  | ok result =>
    simp only [hdigits, Except.map, Except.ok.injEq, Prod.mk.injEq] at h
    have := length_of_readDigits hdigits
    rw [← h.2]
    omega

theorem length_of_readExponent {use : Use} {text rest : List Char}
    {exponent : Option (Bool × List Char)}
    (h : readExponent use text = .ok (exponent, rest)) : rest.length ≤ text.length := by
  unfold readExponent at h
  split at h
  · exact Nat.le_succ_of_le (length_of_readExponentDigits h)
  · exact Nat.le_succ_of_le (length_of_readExponentDigits h)
  · simp_all

theorem length_of_readUnsigned {use : Use} {text rest : List Char} {numeral : Numeral}
    (h : readUnsigned use text = .ok (numeral, rest)) : rest.length < text.length := by
  unfold readUnsigned at h
  cases hwhole : readWhole use text with
  | error => simp [hwhole, bind, Except.bind] at h
  | ok first =>
    cases hfraction : readFraction use first.2 with
    | error => simp [hwhole, hfraction, bind, Except.bind] at h
    | ok second =>
      cases hexponent : readExponent use second.2 with
      | error => simp [hwhole, hfraction, hexponent, bind, Except.bind] at h
      | ok third =>
        have := length_of_readWhole hwhole
        have := length_of_readFraction hfraction
        have := length_of_readExponent hexponent
        simp only [hwhole, hfraction, hexponent, bind, Except.bind, pure, Except.pure,
          Except.ok.injEq, Prod.mk.injEq] at h
        rw [← h.2]
        omega

/-- A number takes at least one character. -/
theorem length_of_readNumber {use : Use} {text rest : List Char} {numeral : Numeral}
    (h : readNumber use text = .ok (numeral, rest)) : rest.length < text.length := by
  have hnumeral : readNumeral use text = .ok (numeral, rest) := by
    unfold readNumber at h
    split at h
    · simp at h
    · split at h <;> simp_all
  unfold readNumeral at hnumeral
  split at hnumeral
  · rename_i tail
    cases hunsigned : readUnsigned use tail with
    | error => simp [hunsigned, Except.map] at hnumeral
    | ok result =>
      simp only [hunsigned, Except.map, Except.ok.injEq, Prod.mk.injEq] at hnumeral
      have := length_of_readUnsigned hunsigned
      rw [← hnumeral.2, List.length_cons]
      omega
  · exact length_of_readUnsigned hnumeral

end StyleTree.Json
