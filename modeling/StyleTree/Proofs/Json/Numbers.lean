import Mathlib.Tactic.SplitIfs
import StyleTree.Proofs.Json.Grammar

namespace StyleTree.Json

/-- Whether a value may end in front of a text. -/
def Ends (text : List Char) : Prop :=
  ∀ c ∈ text.head?, isBlank c = true ∨ c = ',' ∨ c = ']' ∨ c = '\x7d'

/-- Whether the digits of a number end in front of a text. -/
def EndsDigits (text : List Char) : Prop :=
  ∀ c ∈ text.head?, c.isDigit = false

theorem Ends.cons {c : Char} (h : isBlank c = true ∨ c = ',' ∨ c = ']' ∨ c = '\x7d')
    (rest : List Char) : Ends (c :: rest) := by
  intro first hfirst
  rw [List.head?_cons, Option.mem_some_iff] at hfirst
  exact hfirst ▸ h

theorem Ends.append {blanks text : List Char} (hblanks : blanks.all isBlank = true)
    (h : Ends text) : Ends (blanks ++ text) := by
  cases blanks with
  | nil => exact h
  | cons c rest => exact .cons (.inl (List.all_eq_true.1 hblanks c List.mem_cons_self)) _

/-- What ends a value is part of no number. -/
theorem Ends.of_mem_head? {text : List Char} (h : Ends text) {c : Char} (hc : c ∈ text.head?) :
    c.isDigit = false ∧ c ≠ '.' ∧ c ≠ 'e' ∧ c ≠ 'E' := by
  rcases h c hc with hblank | rfl | rfl | rfl
  · simp only [isBlank, Bool.or_eq_true, beq_iff_eq] at hblank
    rcases hblank with ((rfl | rfl) | rfl) | rfl <;> decide
  all_goals decide

theorem Ends.not_point_mem {text : List Char} (h : Ends text) : '.' ∉ text.head? :=
  fun hpoint => (h.of_mem_head? hpoint).2.1 rfl

theorem Ends.endsDigits {text : List Char} (h : Ends text) : EndsDigits text :=
  fun _ hc => (h.of_mem_head? hc).1

variable (use : Use)

/-! ### The parts of a number -/

theorem IsDigits.exists_eq_cons {digits : List Char} (h : IsDigits digits) :
    ∃ c rest, digits = c :: rest ∧ c.isDigit = true ∧ rest.all Char.isDigit = true := by
  obtain ⟨c, rest, rfl⟩ := List.exists_cons_of_ne_nil h.1
  exact ⟨c, rest, rfl, Bool.and_eq_true_iff.1 (List.all_cons ▸ h.2)⟩

theorem readDigits_append {digits more : List Char} (h : IsDigits digits)
    (hmore : EndsDigits more) : readDigits use (digits ++ more) = .ok (digits, more) := by
  obtain ⟨c, rest, rfl, hc, hrest⟩ := h.exists_eq_cons
  have htake : (rest ++ more).takeWhile Char.isDigit = rest := by
    rw [List.takeWhile_append_of_pos (List.all_eq_true.1 hrest)]
    cases more with
    | nil => simp
    | cons first others => simp [hmore first (by simp)]
  have hdrop : (rest ++ more).dropWhile Char.isDigit = more := by
    rw [List.dropWhile_append_of_pos (List.all_eq_true.1 hrest)]
    cases more with
    | nil => rfl
    | cons first others => simp [hmore first (by simp)]
  rw [List.cons_append, readDigits, if_pos hc, htake, hdrop]

theorem readWhole_append {digits more : List Char} (h : IsWhole digits)
    (hmore : EndsDigits more) : readWhole use (digits ++ more) = .ok (digits, more) := by
  unfold readWhole
  rw [readDigits_append _ h.1 hmore]
  split
  · simp_all
  · rename_i hzero
    obtain ⟨rfl, rfl⟩ := Prod.mk.inj (Except.ok.inj hzero)
    exact absurd (h.2 rfl) (by simp)
  · simp_all

theorem readFraction_eq {text : List Char} (hpoint : '.' ∉ text.head?) :
    readFraction use text = .ok ([], text) := by
  unfold readFraction
  split
  · simp at hpoint
  · rfl

theorem exists_readFraction_append {fraction more : List Char} (h : IsFraction fraction)
    (hmore : EndsDigits more) (hpoint : '.' ∉ more.head?) :
    ∃ digits, readFraction use (fraction ++ more) = .ok (digits, more) := by
  cases h with
  | none => exact ⟨[], readFraction_eq _ hpoint⟩
  | some hdigits => exact ⟨_, readDigits_append _ hdigits hmore⟩

theorem exists_readSign_append {sign digits : List Char} (more : List Char)
    (hsign : sign = [] ∨ sign = ['+'] ∨ sign = ['-']) (hdigits : IsDigits digits) :
    ∃ negative, readSign (sign ++ (digits ++ more)) = (negative, digits ++ more) := by
  rcases hsign with rfl | rfl | rfl
  · obtain ⟨c, rest, rfl, hc, _⟩ := hdigits.exists_eq_cons
    have hminus : c ≠ '-' := by
      rintro rfl
      simp at hc
    have hplus : c ≠ '+' := by
      rintro rfl
      simp at hc
    exact ⟨false, by simp [readSign, hminus, hplus]⟩
  · exact ⟨false, rfl⟩
  · exact ⟨true, rfl⟩

theorem exists_readExponentDigits_append {sign digits more : List Char}
    (hsign : sign = [] ∨ sign = ['+'] ∨ sign = ['-']) (hdigits : IsDigits digits)
    (hmore : EndsDigits more) :
    ∃ result, readExponentDigits use (sign ++ (digits ++ more)) = .ok (result, more) := by
  obtain ⟨negative, hsign⟩ := exists_readSign_append more hsign hdigits
  refine ⟨some (negative, digits), ?_⟩
  rw [readExponentDigits, hsign]
  simp only [readDigits_append _ hdigits hmore, Except.map]

theorem readExponent_eq {text : List Char} (h : Ends text) :
    readExponent use text = .ok (none, text) := by
  unfold readExponent
  split
  · exact absurd rfl (h.of_mem_head? (c := 'e') rfl).2.2.1
  · exact absurd rfl (h.of_mem_head? (c := 'E') rfl).2.2.2
  · rfl

theorem exists_readExponent_append {exponent more : List Char} (h : IsExponent exponent)
    (hmore : Ends more) : ∃ result, readExponent use (exponent ++ more) = .ok (result, more) := by
  cases h with
  | none => exact ⟨none, readExponent_eq _ hmore⟩
  | some hmark hsign hdigits =>
    rw [List.cons_append, List.append_assoc]
    rcases hmark with rfl | rfl
    · exact exists_readExponentDigits_append _ hsign hdigits hmore.endsDigits
    · exact exists_readExponentDigits_append _ hsign hdigits hmore.endsDigits

/-! ### Numbers -/

/-- No digit, and no point, is where an exponent may be. -/
theorem IsExponent.endsDigits_append {exponent more : List Char} (h : IsExponent exponent)
    (hmore : Ends more) : EndsDigits (exponent ++ more) ∧ '.' ∉ (exponent ++ more).head? := by
  cases h with
  | none => exact ⟨hmore.endsDigits, hmore.not_point_mem⟩
  | some hmark =>
    rcases hmark with rfl | rfl
    · exact ⟨by simp [EndsDigits], by simp⟩
    · exact ⟨by simp [EndsDigits], by simp⟩

theorem IsFraction.endsDigits_append {fraction more : List Char} (h : IsFraction fraction)
    (hmore : EndsDigits more) : EndsDigits (fraction ++ more) := by
  cases h with
  | none => exact hmore
  | some => simp [EndsDigits]

theorem exists_readUnsigned_append {whole fraction exponent more : List Char}
    (hwhole : IsWhole whole) (hfraction : IsFraction fraction) (hexponent : IsExponent exponent)
    (hmore : Ends more) :
    ∃ numeral, readUnsigned use (whole ++ (fraction ++ (exponent ++ more))) =
      .ok (numeral, more) := by
  obtain ⟨hdigits, hpoint⟩ := hexponent.endsDigits_append hmore
  have hfirst := readWhole_append use hwhole (hfraction.endsDigits_append hdigits)
  obtain ⟨digits, hsecond⟩ := exists_readFraction_append use hfraction hdigits hpoint
  obtain ⟨result, hthird⟩ := exists_readExponent_append use hexponent hmore
  refine ⟨{ whole, fraction := digits, exponent := result }, ?_⟩
  simp only [readUnsigned, hfirst, hsecond, hthird, bind, Except.bind, pure, Except.pure]

/-- Digits begin a number without a minus sign. -/
theorem readNumeral_of_isDigit {c : Char} (h : c.isDigit = true) (text : List Char) :
    readNumeral use (c :: text) = readUnsigned use (c :: text) := by
  unfold readNumeral
  split
  · rename_i heq
    obtain ⟨rfl, _⟩ := List.cons.inj heq
    simp at h
  · rfl

theorem exists_readNumeral_append {text more : List Char} (h : IsNumeral text)
    (hmore : Ends more) : ∃ numeral, readNumeral use (text ++ more) = .ok (numeral, more) := by
  obtain ⟨hsign, hwhole, hfraction, hexponent⟩ := h
  obtain ⟨numeral, hread⟩ :=
    exists_readUnsigned_append use hwhole hfraction hexponent hmore
  simp only [List.append_assoc]
  rcases hsign with rfl | rfl
  · obtain ⟨c, rest, rfl, hc, _⟩ := hwhole.1.exists_eq_cons
    exact ⟨numeral, (readNumeral_of_isDigit _ hc _).trans hread⟩
  · exact ⟨{ numeral with negative := true }, by
      simp only [List.singleton_append, readNumeral, hread, Except.map]⟩

theorem IsNumeral.exists_eq_cons {text : List Char} (h : IsNumeral text) :
    ∃ c rest, text = c :: rest ∧ (c = '-' ∨ c.isDigit = true) := by
  obtain ⟨hsign, hwhole, _, _⟩ := h
  rcases hsign with rfl | rfl
  · obtain ⟨c, rest, rfl, hc, _⟩ := hwhole.1.exists_eq_cons
    exact ⟨c, _, rfl, .inr hc⟩
  · exact ⟨'-', _, rfl, .inl rfl⟩

theorem ne_of_beginsNumeral {c other : Char} (h : c = '-' ∨ c.isDigit = true)
    (hdigit : other.isDigit = false) (hminus : other ≠ '-') : c ≠ other := by
  rintro rfl
  rcases h with rfl | h
  · exact hminus rfl
  · simp [hdigit] at h

theorem isBlank_of_beginsNumeral {c : Char} (h : c = '-' ∨ c.isDigit = true) :
    isBlank c = false := by
  have hne : ∀ other : Char, other.isDigit = false → other ≠ '-' → c ≠ other :=
    fun _ => ne_of_beginsNumeral h
  simp [isBlank, hne]

/-- What begins a number begins no other value. -/
theorem readScalar_of_beginsNumeral {c : Char} (h : c = '-' ∨ c.isDigit = true)
    (text : List Char) :
    readScalar use (c :: text) =
      (readNumber use (c :: text)).map fun (numeral, rest) => (.number numeral, rest) := by
  rw [readScalar, if_pos h]
  all_goals exact ne_of_beginsNumeral h (by decide) (by decide)

/-! ### Natural numbers that 64 bits hold -/

theorem head?_toDigits {n : Nat} (h : (Nat.toDigits 10 n).head? = some '0') : n = 0 := by
  induction n using Nat.strongRecOn with
  | _ n ih =>
    by_cases hlt : n < 10
    · rw [Nat.toDigits_of_lt_base hlt, List.head?_cons, Option.some.injEq] at h
      exact Nat.digitChar_eq_zero.1 h
    · obtain ⟨c, rest, hdigits⟩ := List.exists_cons_of_ne_nil
        (Nat.toDigits_ne_nil (n := n / 10) (b := 10))
      rw [Nat.toDigits_of_base_le (by decide) (Nat.le_of_not_lt hlt), hdigits] at h
      have := ih (n / 10) (by omega) (hdigits ▸ h)
      omega

theorem isWhole_toDigits (n : Nat) : IsWhole (Nat.toDigits 10 n) := by
  refine ⟨⟨Nat.toDigits_ne_nil, ?_⟩, fun h => ?_⟩
  · exact List.all_eq_true.2 fun _ hc => Nat.isDigit_of_mem_toDigits (by decide) (by decide) hc
  · rw [head?_toDigits h]
    rfl

theorem le_ofDigitChars (digits : List Char) (n : Nat) : n ≤ Nat.ofDigitChars 10 digits n := by
  induction digits generalizing n with
  | nil => exact Nat.le_refl _
  | cons c rest ih =>
    rw [Nat.ofDigitChars_cons]
    exact Nat.le_trans (by omega) (ih _)

theorem Numeral.appendDigit?_eq {n : Nat} {c : Char}
    (h : 10 * n + (c.toNat - '0'.toNat) < Nat.pow 2 64) :
    appendDigit? n c = some (10 * n + (c.toNat - '0'.toNat)) := by
  have hlonger : n * 10 + (c.toNat - 0x30) = 10 * n + (c.toNat - '0'.toNat) := by
    rw [Nat.mul_comm]
    rfl
  unfold appendDigit?
  rw [hlonger]
  exact if_pos h

/-- No digit of a number that 64 bits hold is dropped. -/
theorem Numeral.wholePart_eq {digits : List Char} {n : Nat}
    (h : Nat.ofDigitChars 10 digits n < Nat.pow 2 64) :
    wholePart n digits = (Nat.ofDigitChars 10 digits n, 0) := by
  induction digits generalizing n with
  | nil => rfl
  | cons c rest ih =>
    rw [Nat.ofDigitChars_cons] at h ⊢
    have hlonger : 10 * n + (c.toNat - '0'.toNat) < Nat.pow 2 64 :=
      Nat.lt_of_le_of_lt (le_ofDigitChars rest _) h
    rw [wholePart_cons (appendDigit?_eq hlonger), ih h]

theorem roundBits_le {bits : Nat} (hbits : 0 < bits) (n : Nat) : roundBits bits n ≤ 2 * n := by
  unfold roundBits
  split_ifs with hsmall
  · omega
  · have hpositive : n ≠ 0 := by
      rintro rfl
      exact hsmall (Nat.pow_pos (by decide))
    have hunit : Nat.pow 2 (n.log2 + 1 - bits) ≤ n := calc
      2 ^ (n.log2 + 1 - bits) ≤ 2 ^ n.log2 := Nat.pow_le_pow_right (by decide) (by omega)
      _ ≤ n := Nat.log2_self_le hpositive
    have hbelow := Nat.div_mul_le_self n (Nat.pow 2 (n.log2 + 1 - bits))
    simp only []
    split_ifs
    · omega
    · rw [Nat.add_mul]
      omega

theorem isFinite_ofNat {n : Nat} (h : n < Nat.pow 2 64) : (Numeral.ofNat n).isFinite = true := by
  have hdigits : Nat.ofDigitChars 10 (Nat.toDigits 10 n) 0 = n :=
    Nat.ofDigitChars_toDigits (by decide) (by decide)
  have hwhole : Numeral.wholePart 0 (Nat.toDigits 10 n) = (n, 0) := by
    rw [Numeral.wholePart_eq (hdigits.symm ▸ h), hdigits]
  have hscaled : (Numeral.ofNat n).scaled = (n, 0) := by
    simp only [Numeral.scaled, Numeral.ofNat, hwhole]
    rfl
  have hone : roundBits 53 (Nat.pow 10 (0 : Int).toNat) = 1 := by decide
  have hround : roundBits 53 n < 2 * Nat.pow 2 64 :=
    Nat.lt_of_le_of_lt (roundBits_le (by decide) n) (Nat.mul_lt_mul_of_pos_left h (by decide))
  have hbound : 2 * Nat.pow 2 64 ≤ (Nat.pow 2 54 - 1) * Nat.pow 2 970 := by decide +kernel
  have hlimit := Nat.lt_of_lt_of_le hround hbound
  rw [Numeral.isFinite, hscaled]
  dsimp only
  rw [hone, Nat.mul_one, decide_eq_true hlimit]
  simp

theorem readNumeral_toDigits (n : Nat) {more : List Char} (hmore : Ends more) :
    readNumeral use (Nat.toDigits 10 n ++ more) = .ok (.ofNat n, more) := by
  have hwhole := isWhole_toDigits n
  obtain ⟨c, rest, hdigits, hc, _⟩ := hwhole.1.exists_eq_cons
  have hfirst := readWhole_append use hwhole hmore.endsDigits
  have hsecond := readFraction_eq use hmore.not_point_mem
  have hthird := readExponent_eq use hmore
  rw [hdigits, List.cons_append, readNumeral_of_isDigit _ hc, ← List.cons_append, ← hdigits]
  simp only [readUnsigned, hfirst, hsecond, hthird, bind, Except.bind, pure, Except.pure]
  rfl

theorem readScalar_toDigits {n : Nat} (h : n < Nat.pow 2 64) {more : List Char}
    (hmore : Ends more) :
    readScalar use (Nat.toDigits 10 n ++ more) = .ok (.number (.ofNat n), more) := by
  obtain ⟨c, rest, hdigits, hc, _⟩ := (isWhole_toDigits n).1.exists_eq_cons
  have hnumber : readNumber use (Nat.toDigits 10 n ++ more) = .ok (.ofNat n, more) := by
    rw [readNumber, readNumeral_toDigits use n hmore]
    simp [isFinite_ofNat h]
  rw [hdigits, List.cons_append] at hnumber ⊢
  rw [readScalar_of_beginsNumeral _ (.inr hc), hnumber]
  rfl

theorem exists_readScalar_numeral {text more : List Char} (h : IsNumeral text)
    (hmore : Ends more) :
    ∃ value, readScalar .skipped (text ++ more) = .ok (value, more) := by
  obtain ⟨numeral, hread⟩ := exists_readNumeral_append .skipped h hmore
  obtain ⟨c, rest, rfl, hc⟩ := h.exists_eq_cons
  have hnumber : readNumber .skipped (c :: rest ++ more) = .ok (numeral, more) := by
    rw [readNumber, hread]
    rfl
  refine ⟨.number numeral, ?_⟩
  rw [List.cons_append] at hnumber ⊢
  rw [readScalar_of_beginsNumeral _ hc, hnumber]
  rfl

end StyleTree.Json
