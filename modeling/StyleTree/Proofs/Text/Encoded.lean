import Mathlib.Tactic.SplitIfs
import StyleTree.Text

namespace StyleTree.Text

/-- The bytes of a text. -/
def encode (text : List Char) : List UInt8 :=
  text.flatMap String.utf8EncodeChar

theorem toList_toUTF8 (text : String) : text.toUTF8.data.toList = encode text.toList := by
  have hlist : (String.ofList text.toList).toUTF8.data.toList = encode text.toList := by
    rw [String.toUTF8_eq_toByteArray, String.toByteArray_ofList]
    exact List.toList_data_toByteArray
  rwa [String.ofList_toList] at hlist

@[simp]
theorem encode_nil : encode [] = [] :=
  rfl

@[simp]
theorem encode_cons (c : Char) (text : List Char) :
    encode (c :: text) = String.utf8EncodeChar c ++ encode text :=
  List.flatMap_cons

@[simp]
theorem encode_append (text more : List Char) :
    encode (text ++ more) = encode text ++ encode more :=
  List.flatMap_append

@[simp]
theorem length_encode (text : List Char) : (encode text).length = byteLength text := by
  induction text with
  | nil => rfl
  | cons c rest ih =>
    rw [encode_cons, List.length_append, String.length_utf8EncodeChar, ih, byteLength_cons]

/-! ### Characters -/

theorem utf8Size_of_lt {c : Char} (h : c.toNat < 128) : c.utf8Size = 1 := by
  rw [Char.utf8Size_eq_one_iff, UInt32.le_iff_toNat_le]
  exact Nat.le_of_lt_succ h

theorem byteLength_concat_of_lt {c : Char} (h : c.toNat < 128) (text : List Char) :
    byteLength (text ++ [c]) = byteLength text + 1 := by
  rw [byteLength_append, byteLength_cons, byteLength_nil, utf8Size_of_lt h]

/-- An ASCII character is one byte. -/
theorem utf8EncodeChar_of_lt {c : Char} (h : c.toNat < 128) :
    String.utf8EncodeChar c = [c.toUInt8] :=
  String.utf8EncodeChar_eq_singleton (utf8Size_of_lt h)

theorem toNat_toUInt8_of_lt {c : Char} (h : c.toNat < 128) : c.toUInt8.toNat = c.toNat := by
  have hmod : c.toUInt8.toNat = c.toNat % 256 := UInt32.toNat_toUInt8 _
  rw [hmod, Nat.mod_eq_of_lt (by omega)]

theorem toUInt8_inj_of_lt {c d : Char} (hc : c.toNat < 128) (hd : d.toNat < 128) :
    c.toUInt8 = d.toUInt8 ↔ c = d := by
  rw [← UInt8.toNat_inj, toNat_toUInt8_of_lt hc, toNat_toUInt8_of_lt hd, Char.toNat_inj]

theorem le_of_mem_utf8EncodeChar {c : Char} (h : 128 ≤ c.toNat) {byte : UInt8}
    (hbyte : byte ∈ String.utf8EncodeChar c) : 128 ≤ byte.toNat := by
  have hlarge : ¬c.val.toNat ≤ 127 := Nat.not_le.2 h
  simp only [String.utf8EncodeChar, hlarge, if_false] at hbyte
  split_ifs at hbyte <;>
    simp only [List.mem_cons, List.not_mem_nil, or_false] at hbyte <;>
    rcases hbyte with rfl | rfl | rfl | rfl <;>
    simp only [UInt8.toNat_ofNat'] <;> omega

theorem ne_toUInt8_of_le {byte : UInt8} (h : 128 ≤ byte.toNat) {c : Char} (hc : c.toNat < 128) :
    byte ≠ c.toUInt8 := by
  rintro rfl
  rw [toNat_toUInt8_of_lt hc] at h
  omega

theorem ne_of_le_of_lt {c d : Char} (hc : 128 ≤ c.toNat) (hd : d.toNat < 128) : c ≠ d := by
  rintro rfl
  omega

theorem getElem?_encode (front back : List Char) :
    (encode (front ++ back))[byteLength front]? = (encode back).head? := by
  rw [encode_append, ← List.head?_drop, List.drop_left' (length_encode front)]

/-- A text starts with an ASCII character if its bytes do. -/
theorem head?_encode_eq_some_iff {c : Char} (h : c.toNat < 128) (text : List Char) :
    (encode text).head? = some c.toUInt8 ↔ text.head? = some c := by
  cases text with
  | nil => simp
  | cons d rest =>
    rcases Nat.lt_or_ge d.toNat 128 with hd | hd
    · simp [utf8EncodeChar_of_lt hd, toUInt8_inj_of_lt hd h]
    · obtain ⟨byte, others, hbytes⟩ :=
        List.exists_cons_of_ne_nil (String.utf8EncodeChar_ne_nil (c := d))
      have hbyte : 128 ≤ byte.toNat := le_of_mem_utf8EncodeChar hd (by simp [hbytes])
      simp [hbytes, ne_toUInt8_of_le hbyte h, ne_of_le_of_lt hd h]

theorem getElem?_encode_cons {c : Char} (h : c.toNat < 128) (front back : List Char) :
    (encode (front ++ c :: back))[byteLength front]? = some c.toUInt8 := by
  rw [getElem?_encode, head?_encode_eq_some_iff h]
  rfl

/-- Behind an ASCII character, the next one starts at the next byte. -/
theorem getElem?_encode_succ {c : Char} (h : c.toNat < 128) (front back : List Char) :
    (encode (front ++ c :: back))[byteLength front + 1]? = (encode back).head? := by
  have hget := getElem?_encode (front ++ [c]) back
  rwa [List.append_assoc, byteLength_concat_of_lt h] at hget

/-! ### Places between characters -/

/-- Whether a byte continues a character, so that no character starts at it. -/
def continues (byte : UInt8) : Bool :=
  128 ≤ byte.toNat && byte.toNat < 192

/-- Whether an offset is that of a place between two characters, or of one of the ends. -/
def isBoundary (bytes : List UInt8) (offset : Nat) : Bool :=
  offset == 0 || bytes[offset]?.elim (offset == bytes.length) fun byte => !continues byte

/-- The bytes between two offsets. There are none if one of the offsets lies in the middle of a
character, or behind the end. -/
def slice? (bytes : List UInt8) (start stop : Nat) : Option (List UInt8) :=
  if start ≤ stop ∧ isBoundary bytes start = true ∧ isBoundary bytes stop = true then
    some ((bytes.take stop).drop start)
  else none

/-- All bytes of a character but the first continue it. -/
theorem exists_utf8EncodeChar_eq_cons (c : Char) :
    ∃ first others, String.utf8EncodeChar c = first :: others ∧ continues first = false ∧
      ∀ byte ∈ others, continues byte = true := by
  have hvalid : c.val.toNat < 1114112 := by
    have hc := c.valid
    rcases hc with hc | hc <;> omega
  have hcontinues : ∀ n, continues (UInt8.ofNat (n % 64 + 128)) = true := by
    intro n
    simp only [continues, UInt8.toNat_ofNat', Bool.and_eq_true, decide_eq_true_eq]
    omega
  rw [String.utf8EncodeChar]
  split_ifs
  all_goals
    refine ⟨_, _, rfl, ?_, ?_⟩
    · simp only [continues, UInt8.toNat_ofNat', Bool.and_eq_false_iff, decide_eq_false_iff_not]
      omega
    · simp only [List.mem_cons, List.not_mem_nil, or_false, forall_eq_or_imp, forall_eq,
        hcontinues, and_self, false_imp_iff, implies_true]

theorem isBoundary_of_getElem? {bytes : List UInt8} {offset : Nat} {byte : UInt8}
    (h : bytes[offset]? = some byte) :
    isBoundary bytes offset = true ↔ offset = 0 ∨ continues byte = false := by
  rw [isBoundary, h]
  simp

/-- No place within a character is a boundary, since the bytes after its first one continue it. -/
theorem isBoundary_within {c : Char} {place : Nat} (h : place + 1 < c.utf8Size)
    (bytes : List UInt8) : isBoundary (String.utf8EncodeChar c ++ bytes) (place + 1) = false := by
  obtain ⟨first, others, hbytes, -, hothers⟩ := exists_utf8EncodeChar_eq_cons c
  have hlength : others.length + 1 = c.utf8Size := by
    rw [← String.length_utf8EncodeChar, hbytes, List.length_cons]
  have hplace : place < others.length := by omega
  have hbyte : (String.utf8EncodeChar c ++ bytes)[place + 1]? = some others[place] := by
    rw [hbytes, List.cons_append, List.getElem?_cons_succ, List.getElem?_append_left hplace,
      List.getElem?_eq_getElem hplace]
  have hcontinues := hothers _ (List.getElem_mem hplace)
  rw [Bool.eq_false_iff, ne_eq, isBoundary_of_getElem? hbyte, hcontinues]
  simp

/-- A boundary behind a character is one of the rest of the text. -/
theorem isBoundary_behind {c : Char} {rest : List Char} {place : Nat}
    (h : isBoundary (String.utf8EncodeChar c ++ encode rest) (c.utf8Size + place) = true) :
    isBoundary (encode rest) place = true := by
  have hplace : (String.utf8EncodeChar c ++ encode rest)[c.utf8Size + place]? =
      (encode rest)[place]? := by
    rw [← String.length_utf8EncodeChar, List.getElem?_append_right (Nat.le_add_right _ _),
      Nat.add_sub_cancel_left]
  have hpos := c.utf8Size_pos
  cases hbyte : (encode rest)[place]? with
  | none =>
    have hend : c.utf8Size = 0 ∧ place = 0 ∨ place = byteLength rest := by
      simpa [isBoundary, hplace, hbyte] using h
    rw [isBoundary, hbyte, hend.resolve_left (by omega)]
    simp
  | some byte =>
    rw [isBoundary_of_getElem? (hplace.trans hbyte)] at h
    rw [isBoundary_of_getElem? hbyte]
    exact .inr (h.resolve_left (by omega))

theorem isBoundary_encode_append (front back : List Char) :
    isBoundary (encode (front ++ back)) (byteLength front) = true := by
  cases back with
  | nil => simp [isBoundary]
  | cons c rest =>
    obtain ⟨first, others, hbytes, hfirst, -⟩ := exists_utf8EncodeChar_eq_cons c
    have hbyte : (encode (front ++ c :: rest))[byteLength front]? = some first := by
      rw [encode_append, encode_cons, hbytes, List.getElem?_append_right (by simp)]
      simp
    exact (isBoundary_of_getElem? hbyte).2 (.inr hfirst)

/-- The bytes of a text can be divided where a character ends, and nowhere else. -/
theorem isBoundary_encode_iff {text : List Char} {offset : Nat} :
    isBoundary (encode text) offset = true ↔
      ∃ front back, text = front ++ back ∧ offset = byteLength front := by
  constructor
  · intro h
    induction text generalizing offset with
    | nil =>
      have hzero : offset = 0 := by simpa [isBoundary] using h
      exact ⟨[], [], rfl, hzero⟩
    | cons c rest ih =>
      rw [encode_cons] at h
      rcases Nat.lt_or_ge offset c.utf8Size with hinside | hbehind
      · cases offset with
        | zero => exact ⟨[], c :: rest, rfl, rfl⟩
        | succ place => exact absurd (h.symm.trans (isBoundary_within hinside _)) (by decide)
      · obtain ⟨place, rfl⟩ := Nat.exists_eq_add_of_le hbehind
        obtain ⟨front, back, rfl, rfl⟩ := ih (isBoundary_behind h)
        exact ⟨c :: front, back, rfl, rfl⟩
  · rintro ⟨front, back, rfl, rfl⟩
    exact isBoundary_encode_append front back

/-- The bytes between two places are those of the characters there. -/
theorem slice?_encode (front middle back : List Char) :
    slice? (encode (front ++ middle ++ back)) (byteLength front) (byteLength (front ++ middle)) =
      some (encode middle) := by
  have hstart : isBoundary (encode (front ++ middle ++ back)) (byteLength front) = true :=
    isBoundary_encode_iff.2 ⟨front, middle ++ back, List.append_assoc .., rfl⟩
  have hstop :
      isBoundary (encode (front ++ middle ++ back)) (byteLength (front ++ middle)) = true :=
    isBoundary_encode_iff.2 ⟨front ++ middle, back, rfl, rfl⟩
  have hle : byteLength front ≤ byteLength (front ++ middle) := by
    rw [byteLength_append]
    exact Nat.le_add_right _ _
  rw [slice?, if_pos ⟨hle, hstart, hstop⟩, encode_append, List.take_left' (length_encode _),
    encode_append, List.drop_left' (length_encode _)]

/-- The bytes from a place on are those of the characters behind it. -/
theorem slice?_encode_length (front back : List Char) :
    slice? (encode (front ++ back)) (byteLength front) (encode (front ++ back)).length =
      some (encode back) := by
  have hslice := slice?_encode front back []
  rw [List.append_nil] at hslice
  rw [length_encode, hslice]

end StyleTree.Text
