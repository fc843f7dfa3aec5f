import StyleTree.Proofs.Selector.Pieces
import StyleTree.Proofs.Text.Encoded

/-!
# Enclosures byte by byte

All characters that have a meaning are single bytes in UTF-8, and the bytes of the others have none.
An escape covers the first byte of a character only, but the bytes behind it change nothing.
-/

namespace StyleTree

/-- What is open at a point of a text that is read byte by byte. -/
structure ByteEnclosure where
  depth : Nat := 0
  quote : Option UInt8 := none
  escaped : Bool := false
deriving DecidableEq, Repr

namespace ByteEnclosure

/-- Whether the point lies in a string. -/
def inString (e : ByteEnclosure) : Bool :=
  e.quote.isSome

/-- Whether one more byte is exposed, and what is open behind it. -/
def advance (e : ByteEnclosure) (byte : UInt8) : Bool × ByteEnclosure :=
  if e.escaped then (false, { e with escaped := false })
  else if byte = '\\'.toUInt8 then (false, { e with escaped := true })
  else
    match e.quote with
    | some quote => (false, if byte = quote then { e with quote := none } else e)
    | none =>
      if byte = '"'.toUInt8 ∨ byte = '\''.toUInt8 then (false, { e with quote := some byte })
      else if byte = '('.toUInt8 ∨ byte = '['.toUInt8 then (false, { e with depth := e.depth + 1 })
      else if byte = ')'.toUInt8 ∨ byte = ']'.toUInt8 then (false, { e with depth := e.depth - 1 })
      else (e.depth == 0, e)

/-- What is open behind some bytes. -/
def after (e : ByteEnclosure) (bytes : List UInt8) : ByteEnclosure :=
  bytes.foldl (fun e byte => (e.advance byte).2) e

/-- The offsets of the exposed occurrences of a separator. -/
def offsets (separator : UInt8) : Nat → ByteEnclosure → List UInt8 → List Nat
  | _, _, [] => []
  | start, e, byte :: rest =>
    (if (e.advance byte).1 && byte == separator then [start] else []) ++
      offsets separator (start + 1) (e.advance byte).2 rest

/-- The bytes before and after the first exposed occurrence of a separator, if there is one. There
is no result at all if one of the cuts would go through a character. -/
def cut? (separator : UInt8) (bytes : List UInt8) : Option (Option (List UInt8 × List UInt8)) :=
  match (offsets separator 0 {} bytes).head? with
  | none => some none
  | some place => do
    let before ← Text.slice? bytes 0 place
    let after ← Text.slice? bytes (place + 1) bytes.length
    return some (before, after)

/-- The bytes from `start` on, cut at all of the given offsets. -/
def cutAt (bytes : List UInt8) : Nat → List Nat → Option (List (List UInt8))
  | start, [] => do
    let last ← Text.slice? bytes start bytes.length
    return [last]
  | start, place :: places => do
    let piece ← Text.slice? bytes start place
    let pieces ← cutAt bytes (place + 1) places
    return piece :: pieces

/-- The bytes between the exposed occurrences of a separator, unless one of the cuts would go
through a character. -/
def segments (separator : UInt8) (bytes : List UInt8) : Option (List (List UInt8)) :=
  cutAt bytes 0 (offsets separator 0 {} bytes)

end ByteEnclosure

/-- The same enclosure for a text that is read byte by byte. -/
def Enclosure.toBytes (e : Enclosure) : ByteEnclosure :=
  ⟨e.depth, e.quote.map Char.toUInt8, e.escaped⟩

namespace ByteEnclosure

variable {enclosure : Enclosure}

theorem inString_toBytes (enclosure : Enclosure) :
    enclosure.toBytes.inString = enclosure.inString :=
  Option.isSome_map

theorem after_cons (e : ByteEnclosure) (byte : UInt8) (bytes : List UInt8) :
    e.after (byte :: bytes) = (e.advance byte).2.after bytes :=
  rfl

theorem after_append (e : ByteEnclosure) (bytes more : List UInt8) :
    e.after (bytes ++ more) = (e.after bytes).after more :=
  List.foldl_append

theorem offsets_append (separator : UInt8) (start : Nat) (e : ByteEnclosure)
    (bytes more : List UInt8) :
    offsets separator start e (bytes ++ more) =
      offsets separator start e bytes ++
        offsets separator (start + bytes.length) (e.after bytes) more := by
  induction bytes generalizing start e with
  | nil => rfl
  | cons byte rest ih =>
    rw [List.cons_append, offsets, offsets, ih, List.append_assoc, List.length_cons,
      Nat.add_comm rest.length, ← Nat.add_assoc]
    rfl

/-! ### One character -/

theorem toNat_lt_of_isQuote {quote : Char} (h : Enclosure.isQuote quote = true) :
    quote.toNat < 128 := by
  have hkind : quote = '"' ∨ quote = '\'' := by simpa [Enclosure.isQuote] using h
  rcases hkind with rfl | rfl <;> decide

/-- A byte that is an ASCII character is read as that character. -/
theorem advance_toUInt8 (h : enclosure.IsSound) {c : Char} (hc : c.toNat < 128) :
    enclosure.toBytes.advance c.toUInt8 = (enclosure.exposes c, (enclosure.next c).toBytes) := by
  have hbyte : ∀ d : Char, d.toNat < 128 → (c.toUInt8 = d.toUInt8 ↔ c = d) :=
    fun d hd => Text.toUInt8_inj_of_lt hc hd
  -- Behind a backslash neither reading looks at what the character is.
  obtain ⟨depth, quote, _ | _⟩ := enclosure
  · simp only [advance, Enclosure.toBytes, hbyte '\\' (by decide), Bool.false_eq_true, if_false]
    by_cases hbackslash : c = '\\'
    · simp [hbackslash, Enclosure.next, Enclosure.exposes]
    · cases quote with
      | some quote =>
        have hquote : quote.toNat < 128 := toNat_lt_of_isQuote (h quote rfl)
        by_cases hends : c = quote
        · subst hends
          simp [hbackslash, Enclosure.next, Enclosure.exposes]
        · simp [hbackslash, hbyte quote hquote, hends, Enclosure.next, Enclosure.exposes]
      | none =>
        have hquote : (c.toUInt8 = '"'.toUInt8 ∨ c.toUInt8 = '\''.toUInt8) ↔
            Enclosure.isQuote c = true := by
          rw [hbyte '"' (by decide), hbyte '\'' (by decide)]
          simp [Enclosure.isQuote]
        have hopener : (c.toUInt8 = '('.toUInt8 ∨ c.toUInt8 = '['.toUInt8) ↔
            Enclosure.isOpener c = true := by
          rw [hbyte '(' (by decide), hbyte '[' (by decide)]
          simp [Enclosure.isOpener]
        have hcloser : (c.toUInt8 = ')'.toUInt8 ∨ c.toUInt8 = ']'.toUInt8) ↔
            Enclosure.isCloser c = true := by
          rw [hbyte ')' (by decide), hbyte ']' (by decide)]
          simp [Enclosure.isCloser]
        simp only [Option.map_none, hquote, hopener, hcloser, Enclosure.next, Enclosure.exposes,
          hbackslash, if_false]
        split_ifs <;> simp_all
  · rfl

/-- A byte that is not ASCII ends an escape and changes nothing else. -/
theorem advance_of_le (h : enclosure.IsSound) {byte : UInt8} (hbyte : 128 ≤ byte.toNat) :
    (enclosure.toBytes.advance byte).2 = { enclosure with escaped := false }.toBytes := by
  have hne : ∀ d : Char, d.toNat < 128 → byte ≠ d.toUInt8 := fun _ => Text.ne_toUInt8_of_le hbyte
  obtain ⟨depth, quote, _ | _⟩ := enclosure
  · cases quote with
    | some quote =>
      have hquote : quote.toNat < 128 := toNat_lt_of_isQuote (h quote rfl)
      simp [advance, Enclosure.toBytes, hne '\\' (by decide), hne quote hquote]
    | none =>
      simp [advance, Enclosure.toBytes, hne '\\' (by decide), hne '"' (by decide),
        hne '\'' (by decide), hne '(' (by decide), hne '[' (by decide), hne ')' (by decide),
        hne ']' (by decide)]
  · rfl

/-- The bytes of a character that is not ASCII end an escape and change nothing else. -/
theorem after_of_le (h : enclosure.IsSound) {bytes : List UInt8} (hne : bytes ≠ [])
    (hbytes : ∀ byte ∈ bytes, 128 ≤ byte.toNat) :
    enclosure.toBytes.after bytes = { enclosure with escaped := false }.toBytes := by
  induction bytes generalizing enclosure with
  | nil => exact absurd rfl hne
  | cons byte rest ih =>
    obtain ⟨hbyte, hrest⟩ := List.forall_mem_cons.1 hbytes
    have hfirst := advance_of_le h hbyte
    cases rest with
    | nil => exact hfirst
    | cons other rest =>
      have hsound : { enclosure with escaped := false }.IsSound := h
      have hlater := ih hsound (List.cons_ne_nil other rest) hrest
      exact (congrArg (fun e => e.after (other :: rest)) hfirst).trans hlater

theorem offsets_of_le {separator : UInt8} (hseparator : separator.toNat < 128) {bytes : List UInt8}
    (hbytes : ∀ byte ∈ bytes, 128 ≤ byte.toNat) (start : Nat) (e : ByteEnclosure) :
    offsets separator start e bytes = [] := by
  induction bytes generalizing start e with
  | nil => rfl
  | cons byte rest ih =>
    obtain ⟨hbyte, hrest⟩ := List.forall_mem_cons.1 hbytes
    have hne : (byte == separator) = false := by
      rw [beq_eq_false_iff_ne]
      rintro rfl
      omega
    rw [offsets, ih hrest, hne, Bool.and_false]
    rfl

theorem isDelimiter_of_le {c : Char} (hc : 128 ≤ c.toNat) : isDelimiter c = false := by
  have hne : ∀ d : Char, d.toNat < 128 → c ≠ d := fun _ => Text.ne_of_le_of_lt hc
  simp [isDelimiter, Enclosure.isQuote, Enclosure.isOpener, Enclosure.isCloser,
    hne '"' (by decide), hne '\'' (by decide), hne '(' (by decide), hne '[' (by decide),
    hne ')' (by decide), hne ']' (by decide), hne '\\' (by decide)]

theorem after_utf8EncodeChar (h : enclosure.IsSound) (c : Char) :
    enclosure.toBytes.after (String.utf8EncodeChar c) = (enclosure.next c).toBytes := by
  rcases Nat.lt_or_ge c.toNat 128 with hc | hc
  · rw [Text.utf8EncodeChar_of_lt hc]
    exact congrArg Prod.snd (advance_toUInt8 h hc)
  · rw [after_of_le h String.utf8EncodeChar_ne_nil fun _ => Text.le_of_mem_utf8EncodeChar hc,
      Enclosure.next_of_isDelimiter_eq_false h (isDelimiter_of_le hc)]

/-! ### Texts -/

/-- Behind a text, the same is open whether it is read byte by byte or character by character. -/
theorem after_encode (h : enclosure.IsSound) (text : List Char) :
    enclosure.toBytes.after (Text.encode text) = (enclosure.after text).toBytes := by
  induction text generalizing enclosure with
  | nil => rfl
  | cons c rest ih =>
    rw [Text.encode_cons, after_append, after_utf8EncodeChar h, ih (h.next c), Enclosure.after_cons]

/-- The same separators are exposed in a text, whichever way it is read. -/
theorem offsets_encode (h : enclosure.IsSound) {separator : Char}
    (hseparator : separator.toNat < 128) (start : Nat) (text : List Char) :
    offsets separator.toUInt8 start enclosure.toBytes (Text.encode text) =
      enclosure.offsets separator start text := by
  induction text generalizing enclosure start with
  | nil => rfl
  | cons c rest ih =>
    rw [Text.encode_cons, offsets_append, String.length_utf8EncodeChar, after_utf8EncodeChar h,
      ih (h.next c), Enclosure.offsets_cons]
    congr 1
    rcases Nat.lt_or_ge c.toNat 128 with hc | hc
    · have hsame : (c.toUInt8 == separator.toUInt8) = (c == separator) := by
        rw [Bool.eq_iff_iff, beq_iff_eq, beq_iff_eq]
        exact Text.toUInt8_inj_of_lt hc hseparator
      rw [Text.utf8EncodeChar_of_lt hc, offsets, offsets, advance_toUInt8 h hc, hsame,
        Bool.and_comm, List.append_nil]
    · have hbyte : separator.toUInt8.toNat < 128 := by
        rwa [Text.toNat_toUInt8_of_lt hseparator]
      rw [offsets_of_le hbyte fun _ => Text.le_of_mem_utf8EncodeChar hc]
      simp [Text.ne_of_le_of_lt hc hseparator]

/-! ### Cutting -/

/-- The text before the first exposed separator and the text behind it are cut out. -/
theorem cut?_encode {separator : Char} (hseparator : separator.toNat < 128) (text : List Char) :
    cut? separator.toUInt8 (Text.encode text) =
      some ((Enclosure.cut? separator {} text).map fun (before, after) =>
        (Text.encode before, Text.encode after)) := by
  have hhead : (offsets separator.toUInt8 0 {} (Text.encode text)).head? =
      (Enclosure.cut? separator {} text).map fun pair => 0 + Text.byteLength pair.1 := by
    rw [← Enclosure.head?_offsets, ← offsets_encode Enclosure.isSound_default hseparator]
    rfl
  rw [cut?, hhead]
  cases hcut : Enclosure.cut? separator {} text with
  | none => rfl
  | some pair =>
    obtain ⟨before, after⟩ := pair
    obtain rfl := Enclosure.eq_append_of_cut? hcut
    have hbefore : Text.slice? (Text.encode (before ++ separator :: after)) 0
        (Text.byteLength before) = some (Text.encode before) :=
      Text.slice?_encode [] before (separator :: after)
    have hafter := Text.slice?_encode_length (before ++ [separator]) after
    rw [List.append_assoc, List.singleton_append, Text.byteLength_concat_of_lt hseparator] at hafter
    simp only [Option.map_some, Nat.zero_add, hbefore, hafter]
    rfl

/-- Cutting a text at the ends of its parts gives the parts. -/
theorem cutAt_encode {separator : Char} (hseparator : separator.toNat < 128) (front : List Char)
    {parts : List (List Char)} (hne : parts ≠ []) :
    cutAt (Text.encode (front ++ [separator].intercalate parts)) (Text.byteLength front)
        (Enclosure.ends separator (Text.byteLength front) parts) =
      some (parts.map Text.encode) := by
  match parts with
  | [last] =>
    rw [List.intercalate_singleton, Enclosure.ends, cutAt, Text.slice?_encode_length]
    rfl
  | part :: next :: others =>
    have hpart := Text.slice?_encode front part
      ([separator] ++ [separator].intercalate (next :: others))
    have hrest := cutAt_encode hseparator (front ++ part ++ [separator])
      (List.cons_ne_nil next others)
    rw [Text.byteLength_concat_of_lt hseparator, Text.byteLength_append, List.append_assoc] at hrest
    rw [Text.byteLength_append] at hpart
    rw [List.intercalate_cons_cons, List.append_assoc, ← List.append_assoc front, Enclosure.ends,
      Text.utf8Size_of_lt hseparator, cutAt, hpart, hrest]
    rfl

/-- The parts of a text between the exposed separators are cut out. -/
theorem segments_encode {separator : Char} (hseparator : separator.toNat < 128)
    (text : List Char) :
    segments separator.toUInt8 (Text.encode text) =
      some ((Enclosure.segments separator {} text).map Text.encode) := by
  have hoffsets : offsets separator.toUInt8 0 {} (Text.encode text) =
      Enclosure.ends separator 0 (Enclosure.segments separator {} text) := by
    rw [← Enclosure.offsets_eq_ends_segments, ← offsets_encode Enclosure.isSound_default hseparator]
    rfl
  have hcut := cutAt_encode hseparator [] (Enclosure.segments_ne_nil separator {} text)
  rw [List.nil_append, Enclosure.intercalate_segments, Text.byteLength_nil] at hcut
  rw [segments, hoffsets, hcut]

end ByteEnclosure

end StyleTree
