import Mathlib.Control.Monad.Basic
import StyleTree.Proofs.Assembly.Depth
import StyleTree.Proofs.Token.Stream

/-!
# Parts of a listing

What a walk through a listing meets is what the tokens of the style sheet were, in the same order:
none is lost, doubled or moved.
-/

namespace StyleTree

/-- What is met on a walk through a listing. -/
inductive Part where
  /-- A comment. -/
  | comment (text : String)
  /-- A property or statement. -/
  | declaration (declaration : Declaration)
  /-- The start of a rule. -/
  | opening (name : String)
  /-- The end of a rule. -/
  | closing
deriving DecidableEq, Repr

/-- The part that a token makes. -/
def Token.part : Token → Part
  | .comment text => .comment text
  | .opening selector => .opening selector
  | .closing => .closing
  | .declaration text => .declaration (Declaration.ofText text)

/-- Whether a token makes a part at all: comments may not be kept. -/
def Token.isKept (keepComments : Bool) : Token → Bool
  | .comment _ => keepComments
  | .opening _ => true
  | .closing => true
  | .declaration _ => true

mutual

/-- A walk through an item. -/
def Item.parts : Item → List Part
  | .comment text => [.comment text]
  | .property name value => [.declaration (.property name value)]
  | .statement text => [.declaration (.statement text)]
  | .rule name body => .opening name :: Listing.parts body ++ [.closing]

/-- A walk through a listing, depth first. -/
def Listing.parts : List Item → List Part
  | [] => []
  | item :: rest => item.parts ++ Listing.parts rest

end

theorem Listing.parts_append (listing more : List Item) :
    parts (listing ++ more) = parts listing ++ parts more := by
  induction listing with
  | nil => rfl
  | cons item rest ih => rw [List.cons_append, parts, ih, parts, List.append_assoc]

theorem Listing.mem_parts {listing : List Item} {item : Item} {part : Part} (hitem : item ∈ listing)
    (hpart : part ∈ item.parts) : part ∈ parts listing := by
  induction listing with
  | nil => exact absurd hitem List.not_mem_nil
  | cons first rest ih =>
    rw [parts]
    rcases List.mem_cons.1 hitem with rfl | hrest
    · exact List.mem_append_left _ hpart
    · exact List.mem_append_right _ (ih hrest)

theorem Item.parts_ofDeclaration (declaration : Declaration) :
    (ofDeclaration declaration).parts = [.declaration declaration] := by
  cases declaration <;> rfl

/-- What is met of the tokens that are taken in with `depth` blocks open. -/
def keptParts (keepComments : Bool) (depth : Nat) (tokens : List Token) : List Part :=
  ((matched depth tokens).filter (Token.isKept keepComments)).map Token.part

namespace Assembly

/-- A walk through the blocks around the innermost one, from the outside in, up to where each of
them was left. -/
def trail : List (String × Listing) → List Part
  | [] => []
  | (name, outer) :: rest => trail rest ++ Listing.parts outer ++ [.opening name]

/-- A walk through all that was taken in so far. -/
def walk (assembly : Assembly Listing) : List Part :=
  trail assembly.enclosing ++ Listing.parts assembly.current

variable {keepComments : Bool} {limit : UInt64} {assembly next : Assembly Listing}

/-- Each token goes to the end of the walk, or to nowhere. -/
theorem Takes.walk_eq {token : Token}
    (h : Takes (Listing.assembler keepComments) limit assembly token next) :
    next.walk = assembly.walk ++ keptParts keepComments assembly.depth [token] := by
  cases h with
  | comment current enclosing renamings text =>
    cases keepComments <;>
      simp [walk, keptParts, matched, List.filter_cons, Token.isKept, Token.part,
        Listing.assembler, Listing.parts_append, Listing.parts, Item.parts]
  | declaration current enclosing renamings text =>
    simp [walk, keptParts, matched, List.filter_cons, Token.isKept, Token.part,
      Listing.assembler, Listing.parts_append, Listing.parts,
      Item.parts_ofDeclaration]
  | opening current enclosing renamings selector =>
    simp [walk, trail, keptParts, matched, List.filter_cons, Token.isKept, Token.part,
      Listing.assembler, Listing.parts]
  | unmatched current renamings => simp [walk, keptParts, matched, depth]
  | closing current selector outer rest renamings =>
    simp [walk, trail, keptParts, matched, List.filter_cons, Token.isKept, Token.part,
      Listing.assembler, Listing.parts_append, Listing.parts, Item.parts, depth]

theorem keptParts_cons (keepComments : Bool) (depth : Nat) (token : Token) (rest : List Token) :
    keptParts keepComments depth (token :: rest) =
      keptParts keepComments depth [token] ++
        keptParts keepComments (token.depthAfter depth) rest := by
  rw [keptParts, keptParts, keptParts, ← List.map_append, ← List.filter_append]
  by_cases h : token = .closing ∧ depth = 0
  · obtain ⟨rfl, rfl⟩ := h
    rfl
  · simp only [matched, if_neg h, List.singleton_append]

/-- After a run, the walk is longer by what is met of the tokens. -/
theorem walk_foldlM {tokens : List Token}
    (h : tokens.foldlM (take (Listing.assembler keepComments) limit) assembly = .ok next) :
    next.walk = assembly.walk ++ keptParts keepComments assembly.depth tokens := by
  induction tokens generalizing assembly with
  | nil =>
    obtain rfl := Except.ok.inj h
    exact (List.append_nil _).symm
  | cons token rest ih =>
    obtain ⟨after, htakes, hrest⟩ := exists_takes_of_foldlM h
    rw [ih hrest, htakes.walk_eq, htakes.depth_eq, List.append_assoc, ← keptParts_cons]

/-- Closing what is open adds a closing for each rule that was not closed. -/
theorem parts_collapse (current : Listing) (enclosing : List (String × Listing)) :
    Listing.parts (collapse (Listing.assembler keepComments) current enclosing) =
      trail enclosing ++ Listing.parts current ++
        List.replicate enclosing.length .closing := by
  induction enclosing generalizing current with
  | nil => simp [collapse, trail, Listing.assembler]
  | cons level rest ih =>
    obtain ⟨name, outer⟩ := level
    rw [collapse, ih]
    simp [trail, Listing.assembler, Listing.parts_append, Listing.parts, Item.parts,
      List.replicate_succ]

end Assembly

/-- A walk through an assembled listing meets what its tokens are, and then the closings of the
rules that were left open. -/
theorem parts_assembled {keepComments : Bool} {limit : UInt64} {tokens : List Token}
    {listing : Listing}
    (h : assembled (Listing.assembler keepComments) limit tokens = .ok listing) :
    Listing.parts listing =
      keptParts keepComments 0 tokens ++ List.replicate (runningDepth 0 tokens) .closing := by
  rw [assembled] at h
  cases hrun : tokens.foldlM (Assembly.take (Listing.assembler keepComments) limit)
      { current := (Listing.assembler keepComments).empty } with
  | error error =>
    rw [hrun] at h
    cases h
  | ok assembly =>
    rw [hrun] at h
    obtain rfl := Except.ok.inj h
    have hwalk := Assembly.walk_foldlM hrun
    have hdepth := Assembly.depth_foldlM hrun
    rw [Assembly.parts_collapse, ← Assembly.walk, hwalk, ← Assembly.depth, hdepth]
    simp [Assembly.walk, Assembly.trail, Assembly.depth, Listing.assembler, Listing.parts]

/-- What holds of the parts of all tokens and of closings holds of the parts of the listing. -/
theorem forall_mem_parts_assembled {P : Part → Prop} {keepComments : Bool} {limit : UInt64}
    {tokens : List Token} {listing : Listing}
    (h : assembled (Listing.assembler keepComments) limit tokens = .ok listing)
    (htokens : ∀ token ∈ tokens, P token.part) (hclosing : P .closing) :
    ∀ part ∈ Listing.parts listing, P part := by
  rw [parts_assembled h, List.forall_mem_append]
  constructor
  · intro part hpart
    obtain ⟨token, htoken, rfl⟩ := List.mem_map.1 hpart
    exact htokens token (mem_of_mem_matched (List.mem_filter.1 htoken).1)
  · intro part hpart
    rw [List.eq_of_mem_replicate hpart]
    exact hclosing

/-- What holds of the parts of all tokens that there can be holds of the parts of a listing that was
read. -/
theorem forall_mem_parts_of_lexes {P : Part → Prop} {keepComments : Bool} {limit : UInt64}
    {css : String} {listing : Listing}
    (h : assembled (Listing.assembler keepComments) limit (tokens css) = .ok listing)
    (hlexes : ∀ text token rest, Lexes text token rest → P token.part) (hclosing : P .closing) :
    ∀ part ∈ Listing.parts listing, P part := by
  refine forall_mem_parts_assembled h ?_ hclosing
  rw [tokens_eq_tokensOf]
  exact forall_mem_tokensOf hlexes css.toList

namespace Sheet

/-- Reading a listing loses, doubles and moves nothing. A walk through the listing meets the tokens
of the text, each declaration as a property or a statement, but without the closing braces that
close nothing and without comments, unless they are kept. In the end it meets a closing for each
block that is still open after the last token. -/
theorem parts_of_parse {settings : Settings} {css : String} {sheet : Sheet}
    (hordered : settings.ordered = true) (hparse : parse settings css = .ok sheet) :
    ∃ listing, sheet = .listed listing ∧
      Listing.parts listing =
        ((matched 0 (tokens (settings.source css))).filter
            (Token.isKept settings.keepsComments)).map Token.part ++
          List.replicate (runningDepth 0 (tokens (settings.source css))) .closing := by
  rw [parse_ordered hordered] at hparse
  cases hassembled : assembled (Listing.assembler settings.keepsComments) settings.maxDepth
      (tokens (settings.source css)) with
  | error error =>
    rw [hassembled] at hparse
    cases hparse
  | ok listing =>
    rw [hassembled] at hparse
    exact ⟨listing, (Except.ok.inj hparse).symm, parts_assembled hassembled⟩

/-- A style sheet with a closing brace too many, a comment, and two blocks without an end. -/
theorem parts_of_parse_unbalanced :
    parse { ordered := true, comments := true }
        "\x7d a \x7b /*c*/ x: 1; \x7d b \x7b @q; c \x7b" =
        .ok (.listed [.rule "a" [.comment "/*c*/", .property "x" "1"],
          .rule "b" [.statement "@q;", .rule "c" []]]) ∧
      Listing.parts [.rule "a" [.comment "/*c*/", .property "x" "1"],
          .rule "b" [.statement "@q;", .rule "c" []]] =
        [.opening "a", .comment "/*c*/", .declaration (.property "x" "1"), .closing,
          .opening "b", .declaration (.statement "@q;"), .opening "c", .closing, .closing] := by
  have hparse : parse { ordered := true, comments := true }
      "\x7d a \x7b /*c*/ x: 1; \x7d b \x7b @q; c \x7b" =
        .ok (.listed [.rule "a" [.comment "/*c*/", .property "x" "1"],
          .rule "b" [.statement "@q;", .rule "c" []]]) := by decide +kernel
  refine ⟨hparse, ?_⟩
  obtain ⟨listing, hlisting, hparts⟩ := parts_of_parse rfl hparse
  rw [Sheet.listed.inj hlisting, hparts]
  decide +kernel

end Sheet

end StyleTree
