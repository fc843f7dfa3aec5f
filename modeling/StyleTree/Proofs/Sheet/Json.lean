import StyleTree.Proofs.Block.Json
import StyleTree.Proofs.Listing.Parts
import StyleTree.Proofs.Token.Line

namespace StyleTree

/-- A comment starts with its delimiter, and a statement does not. -/
def Part.Marked : Part → Prop
  | .comment text => ∃ body, text.toList = '/' :: '*' :: body
  | .declaration (.property _ _) => True
  | .declaration (.statement text) => ∀ body, text.toList ≠ '/' :: '*' :: body
  | .opening _ => True
  | .closing => True

/-! ### Tokens -/

/-- The semicolon of a statement makes no comment of it. -/
theorem Declaration.marked_ofText {ending : Ending} {text : String}
    (h : IsRunText ending text.toList) : (Part.declaration (ofText text)).Marked := by
  rw [ofText]
  split
  · trivial
  · intro body hbody
    rw [String.toList_push] at hbody
    obtain ⟨c, rest, -, -, -, hcomment⟩ := h.startsRun [';'] (by simp)
    exact hcomment body hbody

theorem Lexes.marked_part {text rest : List Char} {token : Token} (h : Lexes text token rest) :
    token.part.Marked := by
  cases token with
  | comment content =>
    cases h with
    | comment => exact ⟨_, String.toList_ofList⟩
    | unclosed => exact ⟨_, String.toList_ofList⟩
  | opening name => trivial
  | closing => trivial
  | declaration content =>
    obtain ⟨ending, hrun⟩ := h.exists_isRunText_of_declaration
    exact Declaration.marked_ofText hrun

/-! ### Values of listings -/

theorem toString_inj {index other : Nat} (h : toString index = toString other) :
    index = other := by
  have hdigits : Nat.toDigits 10 index = Nat.toDigits 10 other := String.ofList_injective h
  have hvalues := congrArg (fun digits => Nat.ofDigitChars 10 digits 0) hdigits
  simpa using hvalues

namespace Listing

/-- The keys of items are their positions, which start with that of the first item. -/
theorem exists_of_mem_keys_membersFrom {index : Nat} {listing : Listing} {key : String}
    (h : key ∈ Table.keys (membersFrom index listing)) :
    ∃ position, index ≤ position ∧ key = toString position := by
  induction listing generalizing index with
  | nil => simp [membersFrom, Table.keys] at h
  | cons item rest ih =>
    rw [membersFrom] at h
    rcases List.mem_cons.1 h with rfl | hrest
    · exact ⟨index, Nat.le_refl index, rfl⟩
    · obtain ⟨position, hle, hkey⟩ := ih hrest
      exact ⟨position, by omega, hkey⟩

theorem nodup_keys_membersFrom (index : Nat) (listing : Listing) :
    (Table.keys (membersFrom index listing)).Nodup := by
  induction listing generalizing index with
  | nil => exact List.nodup_nil
  | cons item rest ih =>
    rw [membersFrom]
    refine List.nodup_cons.2 ⟨?_, ih (index + 1)⟩
    intro hmem
    obtain ⟨position, hle, hkey⟩ := exists_of_mem_keys_membersFrom hmem
    have hsame := toString_inj hkey
    omega

mutual

theorem regular_itemJson : ∀ item : Item, (itemJson item).Regular
  | .comment _ => trivial
  | .statement _ => trivial
  | .property _ _ => ⟨by simp [Table.keys], trivial, trivial, trivial, trivial⟩
  | .rule _ body =>
    ⟨by simp [Table.keys], trivial,
      ⟨nodup_keys_membersFrom 0 body, regularMembers_membersFrom 0 body⟩, trivial, trivial⟩

theorem regularMembers_membersFrom : ∀ (index : Nat) (listing : List Item),
    Json.RegularMembers (membersFrom index listing)
  | _, [] => trivial
  | index, item :: rest => ⟨regular_itemJson item, regularMembers_membersFrom (index + 1) rest⟩

end

theorem regular_toJson (listing : Listing) : (toJson listing).Regular :=
  ⟨nodup_keys_membersFrom 0 listing, regularMembers_membersFrom 0 listing⟩

theorem ne_of_marked {text other : String} (h : (Part.comment text).Marked)
    (hother : (Part.declaration (.statement other)).Marked) : text ≠ other := by
  obtain ⟨body, hbody⟩ := h
  rintro rfl
  exact hother body hbody

mutual

/-- The value of a marked item tells which kind it is of, and what is in it. -/
theorem itemJson_inj : ∀ item other : Item, (∀ part ∈ item.parts, part.Marked) →
    (∀ part ∈ other.parts, part.Marked) → itemJson item = itemJson other → item = other
  | .comment text, other, hitem, hother, h => by
    cases other with
    | comment label => simpa [itemJson] using h
    | statement label =>
      -- Both are strings, but only one of them starts with the delimiter of a comment.
      have hne := ne_of_marked (hitem _ (List.mem_singleton_self _))
        (hother _ (List.mem_singleton_self _))
      exact absurd (by simpa [itemJson] using h) hne
    | property => simp [itemJson] at h
    | rule => simp [itemJson] at h
  | .statement text, other, hitem, hother, h => by
    cases other with
    | statement label => simpa [itemJson] using h
    | comment label =>
      have hne := ne_of_marked (hother _ (List.mem_singleton_self _))
        (hitem _ (List.mem_singleton_self _))
      exact absurd (by simpa [itemJson] using h.symm) hne
    | property => simp [itemJson] at h
    | rule => simp [itemJson] at h
  | .property name value, other, _, _, h => by
    cases other with
    | property => simpa [itemJson] using h
    | rule => simp [itemJson] at h
    | comment => simp [itemJson] at h
    | statement => simp [itemJson] at h
  | .rule name body, other, hitem, hother, h => by
    cases other with
    | rule label content =>
      obtain ⟨rfl, hmembers⟩ : name = label ∧ membersFrom 0 body = membersFrom 0 content := by
        simpa [itemJson] using h
      rw [Item.parts, List.cons_append, List.forall_mem_cons, List.forall_mem_append]
        at hitem hother
      rw [membersFrom_inj 0 body content hitem.2.1 hother.2.1 hmembers]
    | property => simp [itemJson] at h
    | comment => simp [itemJson] at h
    | statement => simp [itemJson] at h

theorem membersFrom_inj : ∀ (index : Nat) (listing others : List Item),
    (∀ part ∈ parts listing, part.Marked) → (∀ part ∈ parts others, part.Marked) →
    membersFrom index listing = membersFrom index others → listing = others
  | _, [], [], _, _, _ => rfl
  | _, [], _ :: _, _, _, h => by simp [membersFrom] at h
  | _, _ :: _, [], _, _, h => by simp [membersFrom] at h
  | index, item :: rest, other :: others, hlisting, hothers, h => by
    rw [parts, List.forall_mem_append] at hlisting hothers
    obtain ⟨hitem, hrest⟩ := List.cons.inj h
    rw [itemJson_inj item other hlisting.1 hothers.1 (Prod.mk.inj hitem).2,
      membersFrom_inj (index + 1) rest others hlisting.2 hothers.2 hrest]

end

/-- The value of a marked listing tells the listing. -/
theorem toJson_inj {listing others : Listing} (hlisting : ∀ part ∈ parts listing, part.Marked)
    (hothers : ∀ part ∈ parts others, part.Marked) (h : toJson listing = toJson others) :
    listing = others :=
  membersFrom_inj 0 listing others hlisting hothers (Json.object.inj h)

example : toJson [.comment "@a;"] = toJson [.statement "@a;"] :=
  rfl

end Listing

/-! ### Values of style sheets -/

theorem Block.toJson_inj {block other : Block} (h : block.toJson = other.toJson) :
    block = other := by
  have hread := congrArg ofJson? h
  rw [ofJson?_toJson, ofJson?_toJson] at hread
  exact Option.some.inj hread

/-- The keys of a block are no positions. -/
theorem Block.toJson_ne_toJson (block : Block) (listing : Listing) :
    block.toJson ≠ listing.toJson := by
  obtain ⟨children, properties, statements⟩ := block
  intro h
  rw [toJson, Listing.toJson, List.cons_append] at h
  have hmembers := Json.object.inj h
  cases listing with
  | nil => exact List.cons_ne_nil _ _ hmembers
  | cons item rest =>
    rw [Listing.membersFrom] at hmembers
    have hkey : "children" = toString 0 := congrArg Prod.fst (List.cons.inj hmembers).1
    exact absurd hkey (by decide)

namespace Sheet

theorem regular_toJson_of_parse {settings : Settings} {css : String} {sheet : Sheet}
    (h : parse settings css = .ok sheet) : sheet.toJson.Regular := by
  cases sheet with
  | listed listing => exact Listing.regular_toJson listing
  | keyed block =>
    obtain ⟨-, -, -, hkeyed⟩ := exists_listing_of_assembled (assembled_of_parse h) false
    exact Block.regular_toJson block hkeyed

theorem marked_of_parse {settings : Settings} {css : String} {listing : Listing}
    (h : parse settings css = .ok (.listed listing)) :
    ∀ part ∈ Listing.parts listing, part.Marked := by
  have hordered : settings.ordered = true := by
    by_contra hkeyed
    obtain ⟨block, hblock, -⟩ :=
      exists_assembled_of_parse_keyed (Bool.eq_false_iff.2 hkeyed) h
    cases hblock
  obtain ⟨found, hfound, hassembled⟩ := exists_assembled_of_parse_ordered hordered h
  rw [Sheet.listed.inj hfound]
  exact forall_mem_parts_of_lexes hassembled (fun _ _ _ hlexes => hlexes.marked_part) trivial

/-- Style sheets that were read, by whatever settings, are the same if they have the same JSON text:
they are of one kind, and all that they hold comes in the same order, at every level. In listings,
the strings that stand for comments can be told from those that stand for statements. -/
theorem eq_of_print_toJson {settings others : Settings} {css text : String} {sheet other : Sheet}
    (hsheet : parse settings css = .ok sheet) (hother : parse others text = .ok other)
    (layout : Json.Layout) (hjson : sheet.toJson.print layout = other.toJson.print layout) :
    sheet = other := by
  have hvalue : sheet.toJson = other.toJson :=
    Json.print_inj layout (regular_toJson_of_parse hsheet) (regular_toJson_of_parse hother) hjson
  cases sheet with
  | keyed block =>
    cases other with
    | keyed block => exact congrArg _ (Block.toJson_inj hvalue)
    | listed listing => exact absurd hvalue (block.toJson_ne_toJson listing)
  | listed listing =>
    cases other with
    | keyed block => exact absurd hvalue.symm (block.toJson_ne_toJson listing)
    | listed items =>
      exact congrArg _ (Listing.toJson_inj (marked_of_parse hsheet) (marked_of_parse hother) hvalue)

/-- The same comment, statement and property in two texts with different blanks and marks. -/
theorem eq_of_print_toJson_spaced :
    ∃ sheet other,
      parse { ordered := true, comments := true } "a\x7b/*@b;*/@b;c:d\x7d" = .ok sheet ∧
        parse { ordered := true, comments := true, maxDepth := 1 }
          "; a \x7b /*@b;*/ @b ; c : d \x7d \x7d" = .ok other ∧
        sheet.toJson.print = other.toJson.print ∧ sheet = other := by
  have hsheet : parse { ordered := true, comments := true } "a\x7b/*@b;*/@b;c:d\x7d" =
      .ok (.listed [.rule "a" [.comment "/*@b;*/", .statement "@b;", .property "c" "d"]]) := by
    decide +kernel
  have hother : parse { ordered := true, comments := true, maxDepth := 1 }
      "; a \x7b /*@b;*/ @b ; c : d \x7d \x7d" =
      .ok (.listed [.rule "a" [.comment "/*@b;*/", .statement "@b;", .property "c" "d"]]) := by
    decide +kernel
  exact ⟨_, _, hsheet, hother, rfl, eq_of_print_toJson hsheet hother .compact rfl⟩

end Sheet

end StyleTree
