import StyleTree.Json
import StyleTree.Text

namespace StyleTree.Json

/-- The value of a hexadecimal digit in either case. -/
def hexValue? (c : Char) : Option Nat :=
  if c.isDigit then some (c.toNat - 0x30)
  else if 'a' ≤ c ∧ c ≤ 'f' then some (c.toNat - 0x61 + 10)
  else if 'A' ≤ c ∧ c ≤ 'F' then some (c.toNat - 0x41 + 10)
  else none

/-- The number that the four hexadecimal digits at the start of a text make. -/
def fourDigits? : List Char → Option (Nat × List Char)
  | a :: b :: c :: d :: rest => do
    let first ← hexValue? a
    let second ← hexValue? b
    let third ← hexValue? c
    let fourth ← hexValue? d
    return (((first * 16 + second) * 16 + third) * 16 + fourth, rest)
  | _ => none

/-- The number of an escape. The text is cut short if fewer than four bytes are left, whatever
they are. -/
def readUnit (text : List Char) : Except Fault (Nat × List Char) :=
  match fourDigits? text with
  | some result => .ok result
  | none => .error (if Text.byteLength text < 4 then .cutShort else .malformed)

/-- Whether a number is the leading half of a character. -/
def isLeading (unit : Nat) : Bool :=
  0xD800 ≤ unit && unit ≤ 0xDBFF

/-- Whether a number is the trailing half of a character. -/
def isTrailing (unit : Nat) : Bool :=
  0xDC00 ≤ unit && unit ≤ 0xDFFF

/-- The character of which `leading` is one half and the escape at the start of a text the
other. -/
def readOtherHalf (leading : Nat) : List Char → Except Fault (Char × List Char)
  | [] => .error .cutShort
  | ['\\'] => .error .cutShort
  | '\\' :: 'u' :: digits =>
    match readUnit digits with
    | .error fault => .error fault
    | .ok (unit, rest) =>
      if isTrailing unit then
        .ok (Char.ofNat (0x10000 + (leading - 0xD800) * 0x400 + (unit - 0xDC00)), rest)
      else .error .malformed
  | _ => .error .malformed

/-- The character of an escape by number. Halves have to come in pairs, but in a text that is
passed over each escape counts by itself. -/
def readCodePoint (use : Use) (digits : List Char) : Except Fault (Char × List Char) :=
  match readUnit digits with
  | .error fault => .error fault
  | .ok (unit, rest) =>
    if use = .skipped then .ok (Char.ofNat unit, rest)
    else if isTrailing unit then .error .malformed
    else if isLeading unit then readOtherHalf unit rest
    else .ok (Char.ofNat unit, rest)

/-- The character that a letter after a backslash stands for. -/
def escaped? : Char → Option Char
  | '"' => some '"'
  | '\\' => some '\\'
  | '/' => some '/'
  | 'b' => some '\x08'
  | 'f' => some '\x0c'
  | 'n' => some '\n'
  | 'r' => some '\r'
  | 't' => some '\t'
  | _ => none

/-- The character of an escape, of which the backslash was read. -/
def readEscape (use : Use) : List Char → Except Fault (Char × List Char)
  | [] => .error .cutShort
  | 'u' :: digits => readCodePoint use digits
  | c :: rest =>
    match escaped? c with
    | some meant => .ok (meant, rest)
    | none => .error .malformed

theorem length_of_fourDigits? {text rest : List Char} {unit : Nat}
    (h : fourDigits? text = some (unit, rest)) : text.length = rest.length + 4 := by
  unfold fourDigits? at h
  split at h
  · simp only [Option.bind_eq_bind, Option.pure_def, Option.bind_eq_some_iff,
      Option.some.injEq, Prod.mk.injEq] at h
    obtain ⟨_, _, _, _, _, _, _, _, _, rfl⟩ := h
    simp
  · simp at h

theorem length_of_readUnit {text rest : List Char} {unit : Nat}
    (h : readUnit text = .ok (unit, rest)) : text.length = rest.length + 4 := by
  unfold readUnit at h
  split at h
  · rename_i hdigits
    exact length_of_fourDigits? (hdigits.trans (by simpa using h))
  · simp at h

theorem length_of_readOtherHalf {leading : Nat} {text rest : List Char} {c : Char}
    (h : readOtherHalf leading text = .ok (c, rest)) : rest.length < text.length := by
  unfold readOtherHalf at h
  split at h
  · simp at h
  · simp at h
  · split at h
    · simp at h
    · rename_i hunit
      have := length_of_readUnit hunit
      split at h
      · obtain ⟨_, rfl⟩ := Prod.mk.inj (Except.ok.inj h)
        simp only [List.length_cons]
        omega
      · simp at h
  · simp at h

/-- An escape takes at least one character after its backslash. -/
theorem length_of_readEscape {use : Use} {text rest : List Char} {c : Char}
    (h : readEscape use text = .ok (c, rest)) : rest.length < text.length := by
  unfold readEscape at h
  split at h
  · simp at h
  · unfold readCodePoint at h
    split at h
    · simp at h
    · rename_i hunit
      have := length_of_readUnit hunit
      simp only [List.length_cons]
      split at h
      · obtain ⟨_, rfl⟩ := Prod.mk.inj (Except.ok.inj h)
        omega
      · split at h
        · simp at h
        · split at h
          · have := length_of_readOtherHalf h
            omega
          · obtain ⟨_, rfl⟩ := Prod.mk.inj (Except.ok.inj h)
            omega
  · split at h <;> simp_all

/-- The characters of a string, of which the opening quote was read, and the text after its
closing quote. Control characters have to be escaped. -/
def readString (use : Use) : List Char → Except Fault (List Char × List Char)
  | [] => .error .cutShort
  | '"' :: rest => .ok ([], rest)
  | '\\' :: rest =>
    match _ : readEscape use rest with
    | .error fault => .error fault
    | .ok (c, after) => (readString use after).map fun (text, rest) => (c :: text, rest)
  | c :: rest =>
    if c.toNat < 0x20 then .error .malformed
    else (readString use rest).map fun (text, rest) => (c :: text, rest)
termination_by text => text.length
decreasing_by
  · have := length_of_readEscape ‹_›
    simp only [List.length_cons]
    omega
  · simp

/-- Reading a string takes at least its closing quote. -/
theorem length_of_readString {use : Use} {text taken rest : List Char}
    (h : readString use text = .ok (taken, rest)) : rest.length < text.length := by
  fun_induction readString use text generalizing taken with
  | case1 => simp at h
  | case2 => simp_all
  | case3 => simp at h
  | case4 text c after hescape ih =>
    have hshort := length_of_readEscape hescape
    cases hread : readString use after with
    | error => simp [hread, Except.map] at h
    | ok result =>
      simp only [hread, Except.map, Except.ok.injEq, Prod.mk.injEq] at h
      obtain ⟨_, rfl⟩ := h
      have := ih hread
      simp only [List.length_cons]
      omega
  | case5 => simp at h
  | case6 c text _ _ _ ih =>
    cases hread : readString use text with
    | error => simp [hread, Except.map] at h
    | ok result =>
      simp only [hread, Except.map, Except.ok.injEq, Prod.mk.injEq] at h
      obtain ⟨_, rfl⟩ := h
      have := ih hread
      simp only [List.length_cons]
      omega

end StyleTree.Json
