import Mathlib.Tactic.SplitIfs
import StyleTree.Json.Parser
import StyleTree.Json.Printer

namespace StyleTree.Json

variable {use : Use}

/-! ### One character -/

theorem readString_cons_backslash {text after : List Char} {c : Char}
    (h : readEscape use text = .ok (c, after)) :
    readString use ('\\' :: text) =
      (readString use after).map fun (taken, rest) => (c :: taken, rest) := by
  rw [readString]
  split <;> simp_all

theorem readString_cons {c : Char} (hquote : c ≠ '"') (hbackslash : c ≠ '\\')
    (hcontrol : ¬c.toNat < 0x20) (text : List Char) :
    readString use (c :: text) =
      (readString use text).map fun (taken, rest) => (c :: taken, rest) := by
  rw [readString, if_neg hcontrol]
  · exact hquote
  · exact hbackslash

/-- The number of a control character takes no more than the last two of its four digits. -/
theorem readUnit_digitChar {unit : Nat} (h : unit < 0x20) (rest : List Char) :
    readUnit ('0' :: '0' :: Nat.digitChar (unit / 16) :: Nat.digitChar (unit % 16) :: rest) =
      .ok (unit, rest) := by
  have hdigit : ∀ digit < 16, hexValue? (Nat.digitChar digit) = some digit := by decide
  have hzero : hexValue? '0' = some 0 := by decide
  have hhigh : hexValue? (Nat.digitChar (unit / 16)) = some (unit / 16) := hdigit _ (by omega)
  have hlow : hexValue? (Nat.digitChar (unit % 16)) = some (unit % 16) := hdigit _ (by omega)
  have hsum : unit / 16 * 16 + unit % 16 = unit := by omega
  simp [readUnit, fourDigits?, hzero, hhigh, hlow, hsum]

theorem readEscape_unit {unit : Nat} (h : unit < 0x20) (rest : List Char) :
    readEscape use
        ('u' :: '0' :: '0' :: Nat.digitChar (unit / 16) :: Nat.digitChar (unit % 16) :: rest) =
      .ok (Char.ofNat unit, rest) := by
  have hleading : isLeading unit = false := by
    simp only [isLeading, Bool.and_eq_false_iff, decide_eq_false_iff_not]
    omega
  have htrailing : isTrailing unit = false := by
    simp only [isTrailing, Bool.and_eq_false_iff, decide_eq_false_iff_not]
    omega
  rw [readEscape, readCodePoint, readUnit_digitChar h]
  simp [hleading, htrailing]

theorem readString_escape_append (c : Char) (text : List Char) :
    readString use (escape c ++ text) =
      (readString use text).map fun (taken, rest) => (c :: taken, rest) := by
  unfold escape
  split_ifs with hquote hbackslash hbackspace hfeed hnewline hreturn htab hcontrol
  iterate 7
    · subst c
      exact readString_cons_backslash rfl
  · have hunit := @readEscape_unit use _ hcontrol text
    rw [Char.ofNat_toNat] at hunit
    exact readString_cons_backslash hunit
  · exact readString_cons hquote hbackslash hcontrol text

/-! ### Texts -/

/-- A text comes back from its string, of which the opening quote was read. -/
theorem readString_flatMap_escape (text more : List Char) :
    readString use (text.flatMap escape ++ '"' :: more) = .ok (text, more) := by
  induction text with
  | nil => rw [List.flatMap_nil, List.nil_append, readString]
  | cons c rest ih =>
    rw [List.flatMap_cons, List.append_assoc, readString_escape_append, ih]
    rfl

theorem readScalar_stringChars (text : String) (more : List Char) :
    readScalar use (stringChars text ++ more) = .ok (.string text, more) := by
  have htext := @readString_flatMap_escape use text.toList more
  rw [stringChars, List.cons_append, List.append_assoc, List.singleton_append, readScalar, htext]
  simp [Except.map]

theorem readKey_stringChars (text : String) (more : List Char) :
    readKey use (stringChars text ++ more) = .ok (text, more) := by
  have htext := @readString_flatMap_escape use text.toList more
  rw [stringChars, List.cons_append, List.append_assoc, List.singleton_append, readKey, htext]
  simp [Except.map]

end StyleTree.Json
