namespace StyleTree.Text

/-! ### Blanks -/

/-- The ranges of code points with the property `White_Space`, in ascending order. -/
def blankRanges : List (Nat × Nat) :=
  [(0x0009, 0x000D), (0x0020, 0x0020), (0x0085, 0x0085), (0x00A0, 0x00A0),
   (0x1680, 0x1680), (0x2000, 0x200A), (0x2028, 0x2029), (0x202F, 0x202F),
   (0x205F, 0x205F), (0x3000, 0x3000)]

/-- Whether a character has the property `White_Space`. -/
def isBlank (c : Char) : Bool :=
  blankRanges.any fun (first, last) => first ≤ c.toNat && c.toNat ≤ last

/-- The text without the blanks it starts with. -/
def trimStart (text : List Char) : List Char :=
  text.dropWhile isBlank

/-- The text without the blanks it ends with. -/
def trimEnd (text : List Char) : List Char :=
  (text.reverse.dropWhile isBlank).reverse

/-- The text without the blanks at either end. -/
def trim (text : List Char) : List Char :=
  trimEnd (trimStart text)

/-- A text that neither starts nor ends with a blank. The empty text is trimmed. -/
def Trimmed (text : List Char) : Prop :=
  (∀ c ∈ text.head?, isBlank c = false) ∧ (∀ c ∈ text.getLast?, isBlank c = false)

instance (text : List Char) : Decidable (Trimmed text) :=
  @instDecidableAnd _ _ (Option.decidableForallMem _) (Option.decidableForallMem _)

/-! ### Lengths in bytes -/

/-- The number of bytes that a text takes in UTF-8. -/
def byteLength (text : List Char) : Nat :=
  text.foldr (fun c length => c.utf8Size + length) 0

@[simp]
theorem byteLength_nil : byteLength [] = 0 :=
  rfl

@[simp]
theorem byteLength_cons (c : Char) (text : List Char) :
    byteLength (c :: text) = c.utf8Size + byteLength text :=
  rfl

@[simp]
theorem byteLength_append (text more : List Char) :
    byteLength (text ++ more) = byteLength text + byteLength more := by
  induction text with
  | nil => simp
  | cons c rest ih => rw [List.cons_append, byteLength_cons, byteLength_cons, ih, Nat.add_assoc]

theorem utf8ByteSize_ofList (text : List Char) :
    (String.ofList text).utf8ByteSize = byteLength text := by
  induction text with
  | nil => rfl
  | cons c text ih =>
    rw [String.ofList_cons, String.utf8ByteSize_append, String.utf8ByteSize_singleton, ih,
      byteLength_cons]

/-- Of two fronts of a text that have the same size, one is the other. -/
theorem append_inj_of_byteLength {front other back rest : List Char}
    (h : front ++ back = other ++ rest) (hlength : byteLength front = byteLength other) :
    front = other ∧ back = rest := by
  induction front generalizing other with
  | nil =>
    cases other with
    | nil => exact ⟨rfl, h⟩
    | cons c others =>
      have hpos := c.utf8Size_pos
      rw [byteLength_nil, byteLength_cons] at hlength
      omega
  | cons d fronts ih =>
    cases other with
    | nil =>
      have hpos := d.utf8Size_pos
      rw [byteLength_nil, byteLength_cons] at hlength
      omega
    | cons c others =>
      obtain ⟨rfl, htail⟩ := List.cons.inj h
      rw [byteLength_cons, byteLength_cons] at hlength
      obtain ⟨rfl, rfl⟩ := ih htail (by omega)
      exact ⟨rfl, rfl⟩

/-- On a string, the measure is the size of its UTF-8 form. -/
theorem byteLength_toList (text : String) : byteLength text.toList = text.utf8ByteSize := by
  rw [← utf8ByteSize_ofList, String.ofList_toList]

end StyleTree.Text
