import Mathlib.Data.List.Basic
import Mathlib.Tactic.SplitIfs
import StyleTree.Text.Quoted

namespace StyleTree.Text

/-! ### Hexadecimal digits -/

theorem digitChar_inj : ∀ m < 16, ∀ n < 16, Nat.digitChar m = Nat.digitChar n → m = n := by
  decide

theorem toDigits_sixteen_inj {m n : Nat} (h : Nat.toDigits 16 m = Nat.toDigits 16 n) : m = n := by
  have hpos : ∀ k, 0 < (Nat.toDigits 16 k).length := fun _ => Nat.length_toDigits_pos
  induction m using Nat.strongRecOn generalizing n with
  | ind m ih =>
    have hlength := congrArg List.length h
    rw [Nat.toDigits_eq_if (by decide), Nat.toDigits_eq_if (n := n) (by decide)] at h hlength
    split_ifs at h hlength with hm hn hn
    · exact digitChar_inj m hm n hn (List.cons.inj h).1
    · -- One digit is not as many as two or more.
      have hfront := hpos (n / 16)
      rw [List.length_append, List.length_singleton, List.length_singleton] at hlength
      omega
    · have hfront := hpos (m / 16)
      rw [List.length_append, List.length_singleton, List.length_singleton] at hlength
      omega
    · obtain ⟨hfront, hlast⟩ := List.append_inj' h rfl
      have hquotient := ih (m / 16) (by omega) hfront
      have hremainder := digitChar_inj (m % 16) (by omega) (n % 16) (by omega)
        (List.cons.inj hlast).1
      omega

theorem brace_not_mem_toDigits (n : Nat) : '\x7d' ∉ Nat.toDigits 16 n := by
  have hdigit : ∀ k, '\x7d' ≠ Nat.digitChar k := fun _ => (Nat.digitChar_ne _ (by decide)).symm
  induction n using Nat.strongRecOn with
  | ind n ih =>
    rw [Nat.toDigits_eq_if (by decide)]
    split_ifs with hn
    · exact List.not_mem_cons_of_ne_of_not_mem (hdigit n) List.not_mem_nil
    · rw [List.mem_append, not_or]
      exact ⟨ih (n / 16) (by omega),
        List.not_mem_cons_of_ne_of_not_mem (hdigit (n % 16)) List.not_mem_nil⟩

/-- A text ends at the first occurrence of a character that it does not hold. -/
theorem append_cons_inj {c : Char} {front start rest more : List Char} (hfront : c ∉ front)
    (hstart : c ∉ start) (h : front ++ c :: rest = start ++ c :: more) :
    front = start ∧ rest = more := by
  induction front generalizing start with
  | nil =>
    cases start with
    | nil => exact ⟨rfl, (List.cons.inj h).2⟩
    | cons d start => exact absurd ((List.cons.inj h).1 ▸ List.mem_cons_self ..) hstart
  | cons d front ih =>
    rw [List.mem_cons, not_or] at hfront
    cases start with
    | nil => exact absurd (List.cons.inj h).1.symm hfront.1
    | cons e start =>
      obtain ⟨rfl, htail⟩ := List.cons.inj h
      obtain ⟨rfl, hrest⟩ := ih hfront.2 (fun hmem => hstart (List.mem_cons_of_mem _ hmem)) htail
      exact ⟨rfl, hrest⟩

/-! ### Escapes -/

/-- The letters that stand for characters behind a backslash. -/
def letters : List (Char × Char) :=
  [('\x00', '0'), ('\t', 't'), ('\n', 'n'), ('\r', 'r'), ('"', '"'), ('\\', '\\')]

/-- What the quoted form of a character can look like. -/
inductive Escapes : Char → List Char → Prop where
  | letter {c letter : Char} (h : (c, letter) ∈ letters) : Escapes c ['\\', letter]
  | codePoint (c : Char) : Escapes c (codePointEscape c)
  | plain {c : Char} (hquote : c ≠ '"') (hbackslash : c ≠ '\\') : Escapes c [c]

theorem escapes_escape (c : Char) : Escapes c (escape c) := by
  rw [escape]
  split_ifs with hnull htab hfeed hreturn hquote hbackslash
  · exact .letter (by rw [hnull]; decide)
  · exact .letter (by rw [htab]; decide)
  · exact .letter (by rw [hfeed]; decide)
  · exact .letter (by rw [hreturn]; decide)
  · exact .letter (by rw [hquote]; decide)
  · exact .letter (by rw [hbackslash]; decide)
  · exact .codePoint c
  · exact .plain hquote hbackslash

/-- No letter stands for two characters, and none is the one that code points start with. -/
theorem letters_inj : ∀ left ∈ letters, left.2 ≠ 'u' ∧
    ∀ right ∈ letters, left.2 = right.2 → left.1 = right.1 := by
  decide

/-- No escape starts with the quote that ends a text. -/
theorem Escapes.head?_ne {c : Char} {escaped : List Char} (h : Escapes c escaped) :
    ∃ d rest, escaped = d :: rest ∧ d ≠ '"' := by
  cases h with
  | letter => exact ⟨'\\', _, rfl, by decide⟩
  | codePoint => exact ⟨'\\', _, rfl, by decide⟩
  | plain hquote => exact ⟨c, [], rfl, hquote⟩

/-- An escape determines the character and where the escape ends. -/
theorem Escapes.append_inj {c d : Char} {escaped other rest more : List Char}
    (hc : Escapes c escaped) (hd : Escapes d other) (h : escaped ++ rest = other ++ more) :
    c = d ∧ rest = more := by
  cases hc with
  | letter hletter =>
    cases hd with
    | letter hother =>
      obtain ⟨hsame, hrest⟩ := List.cons.inj (List.cons.inj h).2
      exact ⟨(letters_inj _ hletter).2 _ hother hsame, hrest⟩
    | codePoint => exact absurd (List.cons.inj (List.cons.inj h).2).1 (letters_inj _ hletter).1
    | plain _ hbackslash => exact absurd (List.cons.inj h).1.symm hbackslash
  | codePoint =>
    cases hd with
    | letter hother =>
      exact absurd (List.cons.inj (List.cons.inj h).2).1.symm (letters_inj _ hother).1
    | codePoint =>
      -- Both are digits up to a brace, which is no digit.
      have hdigits : Nat.toDigits 16 c.toNat ++ '\x7d' :: rest =
          Nat.toDigits 16 d.toNat ++ '\x7d' :: more := by
        simpa [codePointEscape] using h
      obtain ⟨hsame, hrest⟩ :=
        append_cons_inj (brace_not_mem_toDigits _) (brace_not_mem_toDigits _) hdigits
      exact ⟨Char.toNat_inj.1 (toDigits_sixteen_inj hsame), hrest⟩
    | plain _ hbackslash => exact absurd (List.cons.inj h).1.symm hbackslash
  | plain _ hbackslash =>
    cases hd with
    | letter => exact absurd (List.cons.inj h).1 hbackslash
    | codePoint => exact absurd (List.cons.inj h).1 hbackslash
    | plain => exact List.cons.inj h

theorem escape_append_inj {c d : Char} {rest more : List Char}
    (h : escape c ++ rest = escape d ++ more) : c = d ∧ rest = more :=
  (escapes_escape c).append_inj (escapes_escape d) h

/-- A quoted text determines what was quoted and where it ends. -/
theorem quotedChars_append_inj {text other rest more : List Char}
    (h : quotedChars text ++ rest = quotedChars other ++ more) : text = other ∧ rest = more := by
  have hbody : text.flatMap escape ++ '"' :: rest = other.flatMap escape ++ '"' :: more := by
    simpa [quotedChars] using h
  clear h
  induction text generalizing other with
  | nil =>
    cases other with
    | nil => exact ⟨rfl, (List.cons.inj hbody).2⟩
    | cons d other =>
      obtain ⟨e, tail, hescape, hne⟩ := (escapes_escape d).head?_ne
      rw [List.flatMap_cons, hescape] at hbody
      exact absurd (List.cons.inj hbody).1.symm hne
  | cons c text ih =>
    cases other with
    | nil =>
      obtain ⟨e, tail, hescape, hne⟩ := (escapes_escape c).head?_ne
      rw [List.flatMap_cons, hescape] at hbody
      exact absurd (List.cons.inj hbody).1 hne
    | cons d other =>
      rw [List.flatMap_cons, List.flatMap_cons, List.append_assoc, List.append_assoc] at hbody
      obtain ⟨rfl, htail⟩ := escape_append_inj hbody
      obtain ⟨rfl, hrest⟩ := ih htail
      exact ⟨rfl, hrest⟩

end StyleTree.Text
