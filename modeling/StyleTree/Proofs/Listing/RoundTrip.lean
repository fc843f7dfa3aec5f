import StyleTree.Proofs.Assembly.Lines

namespace StyleTree

mutual

/-- Every text of an item and of what is nested in it, alone on its line, is read as intended. -/
def Item.Readable : Item → Prop
  | .comment text => Css.IsComment text
  | .statement text => Css.IsStatement text
  | .property name value => Css.IsProperty name value
  | .rule name body => Css.IsHeading name name ∧ Listing.Readable body

/-- Every text of a listing, alone on its line, is read as intended. -/
def Listing.Readable : List Item → Prop
  | [] => True
  | item :: rest => item.Readable ∧ Listing.Readable rest

end

mutual

/-- Readability of items can be decided. -/
def Item.decReadable : (item : Item) → Decidable item.Readable
  | .comment text => inferInstanceAs (Decidable (Css.IsComment text))
  | .statement text => inferInstanceAs (Decidable (Css.IsStatement text))
  | .property name value => inferInstanceAs (Decidable (Css.IsProperty name value))
  | .rule name body =>
    have := Listing.decReadable body
    inferInstanceAs (Decidable (Css.IsHeading name name ∧ Listing.Readable body))

/-- Readability of listings can be decided. -/
def Listing.decReadable : (listing : List Item) → Decidable (Listing.Readable listing)
  | [] => isTrue trivial
  | item :: rest =>
    have := item.decReadable
    have := Listing.decReadable rest
    inferInstanceAs (Decidable (item.Readable ∧ Listing.Readable rest))

end

instance : DecidablePred Listing.Readable :=
  Listing.decReadable

mutual

/-- How many blocks are nested in an item, one in the other. -/
def Item.nesting : Item → Nat
  | .rule _ body => Listing.nesting body + 1
  | .comment _ => 0
  | .statement _ => 0
  | .property _ _ => 0

/-- How many blocks are nested in a listing, one in the other. -/
def Listing.nesting : List Item → Nat
  | [] => 0
  | item :: rest => max item.nesting (Listing.nesting rest)

end

namespace Listing

/-- The lines of a listing add its items to the block that is open, and nothing else. -/
theorem read_cssChars {limit : UInt64} (depth : Nat) (breaks afterRule : Bool)
    (listing current : List Item) (enclosing : List (String × Listing)) (renamings : Nat)
    (hreadable : Readable listing) (hnesting : enclosing.length + nesting listing ≤ limit.toNat)
    (more : List Char) :
    Assembly.read (assembler true) limit ⟨current, enclosing, renamings⟩
        (cssChars depth breaks afterRule listing ++ more) =
      Assembly.read (assembler true) limit ⟨current ++ listing, enclosing, renamings⟩ more := by
  fun_induction cssChars depth breaks afterRule listing
    generalizing current enclosing renamings more with
  | case1 => rw [List.nil_append, List.append_nil]
  | case2 depth breaks afterRule text rest ih =>
    obtain ⟨hcomment, hrest⟩ := hreadable
    rw [nesting, Item.nesting, Nat.zero_max] at hnesting
    rw [List.append_assoc, Assembly.read_comment hcomment, ih _ _ _ hrest hnesting]
    simp [assembler]
  | case3 depth breaks afterRule text rest ih =>
    obtain ⟨hstatement, hrest⟩ := hreadable
    rw [nesting, Item.nesting, Nat.zero_max] at hnesting
    rw [List.append_assoc, Assembly.read_statement hstatement, ih _ _ _ hrest hnesting]
    simp [assembler, Item.ofDeclaration]
  | case4 depth breaks afterRule name value rest ih =>
    obtain ⟨hproperty, hrest⟩ := hreadable
    rw [nesting, Item.nesting, Nat.zero_max] at hnesting
    rw [List.append_assoc, Assembly.read_property hproperty, ih _ _ _ hrest hnesting]
    simp [assembler, Item.ofDeclaration]
  | case5 depth breaks afterRule name body rest ihbody ihrest =>
    obtain ⟨⟨hheading, hbody⟩, hrest⟩ := hreadable
    -- The body is read with one block more open, which the bound on its nesting makes room for.
    rw [nesting, Item.nesting] at hnesting
    rw [List.append_assoc, List.append_assoc, Assembly.read_blank,
      Assembly.read_enclosed hheading (Nat.le_refl _) (by omega)
        (ihbody _ _ _ hbody (by simp only [List.length_cons]; omega) _),
      ihrest _ _ _ hrest (by omega)]
    simp [assembler]

end Listing

namespace Sheet

/-- A listing that is written as a style sheet comes back in all its parts when it is read, if its
texts are readable and it does not nest beyond the limit. -/
theorem parse_listing_css {settings : Settings} (hordered : settings.ordered = true)
    (hcomments : settings.comments = true) (hstrip : settings.stripComments = false)
    {listing : Listing} (hnesting : Listing.nesting listing ≤ settings.maxDepth.toNat)
    (hreadable : Listing.Readable listing) (depth : Nat) (breaks : Bool) :
    parse settings (Listing.css listing depth breaks) = .ok (.listed listing) := by
  have hkeeps : settings.keepsComments = true := by
    simp [Settings.keepsComments, hcomments, hstrip]
  have hread : Assembly.read (Listing.assembler true) settings.maxDepth ⟨[], [], 0⟩
      (Listing.css listing depth breaks).toList = .ok ⟨listing, [], 0⟩ := by
    have hchars := Listing.read_cssChars depth breaks false listing [] [] 0 hreadable
      (by simpa using hnesting) []
    rw [List.append_nil, Assembly.read_nil, List.nil_append] at hchars
    rw [Listing.css, String.toList_ofList]
    exact hchars
  rw [parse_ordered hordered, settings.source_eq_self hstrip, hkeeps, assembled_of_read hread]
  rfl

/-- A listing with marks in comments and strings, a selector that comes twice, and a rule in a
rule. -/
def marks : Listing :=
  [.comment "/* ; \x7d */", .statement "@import \"a;b\";",
    .rule "a:hover, b" [.property "content" "\";\"", .comment "/**/", .rule "c" []],
    .rule "a:hover, b" []]

theorem parse_marks_css :
    Listing.Readable marks ∧
      parse { ordered := true, comments := true, maxDepth := 2 } (Listing.css marks 1 true) =
        .ok (.listed marks) := by
  have hreadable : Listing.Readable marks := by decide +kernel
  exact ⟨hreadable, parse_listing_css rfl rfl rfl (by decide +kernel) hreadable 1 true⟩

end Sheet

end StyleTree
