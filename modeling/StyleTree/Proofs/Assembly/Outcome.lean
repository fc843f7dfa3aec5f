import StyleTree.Sheet.Parser

/-!
# The outcome of an assembly

What is noticed on the way has no influence on the content. `assembled` is the content alone, as a
function of the tokens.
-/

namespace StyleTree

variable {β : Type}

namespace Assembly

/-- The open blocks after one more token. -/
def take (assembler : Assembler β) (limit : UInt64) (assembly : Assembly β) (token : Token) :
    Except Error (Assembly β) :=
  (step assembler limit assembly ⟨token, 0, []⟩).1

/-- The outermost block after every open block was closed, from the inside out. -/
def collapse (assembler : Assembler β) : β → List (String × β) → β
  | current, [] => assembler.complete current
  | current, (selector, outer) :: rest =>
    collapse assembler (assembler.nest selector (assembler.complete current) outer).block rest

variable {assembler : Assembler β} {limit : UInt64} {assembly : Assembly β}

theorem take_comment (text : String) :
    take assembler limit assembly (.comment text) =
      .ok { assembly with current := assembler.addComment assembly.current text } :=
  rfl

theorem take_declaration (text : String) :
    take assembler limit assembly (.declaration text) =
      .ok { assembly with
        current := assembler.addDeclaration assembly.current (Declaration.ofText text) } :=
  rfl

theorem take_opening {selector : String} (h : assembly.depth + 1 ≤ limit.toNat) :
    take assembler limit assembly (.opening selector) =
      .ok { assembly with
        current := assembler.empty
        enclosing := (selector, assembly.current) :: assembly.enclosing } := by
  simp only [take, step, gt_iff_lt, if_neg (Nat.not_lt.2 h)]

theorem take_opening_of_lt {selector : String}
    (h : limit.toNat < assembly.depth + 1) :
    take assembler limit assembly (.opening selector) = .error (.tooDeep limit) := by
  simp only [take, step, gt_iff_lt, if_pos h]

theorem take_closing_nil (h : assembly.enclosing = []) :
    take assembler limit assembly .closing = .ok assembly := by
  simp only [take, step, close, h]

theorem take_closing_cons {selector : String} {outer : β} {rest : List (String × β)}
    (h : assembly.enclosing = (selector, outer) :: rest) :
    take assembler limit assembly .closing =
      .ok ⟨(assembler.nest selector (assembler.complete assembly.current) outer).block, rest,
        assembly.renamings +
          (assembler.nest selector (assembler.complete assembly.current) outer).renamings⟩ := by
  simp only [take, step, close, h]

/-- What one token can do to the open blocks. -/
inductive Takes (assembler : Assembler β) (limit : UInt64) :
    Assembly β → Token → Assembly β → Prop where
  | comment (current : β) (enclosing : List (String × β)) (renamings : Nat) (text : String) :
    Takes assembler limit ⟨current, enclosing, renamings⟩ (.comment text)
      ⟨assembler.addComment current text, enclosing, renamings⟩
  | declaration (current : β) (enclosing : List (String × β)) (renamings : Nat) (text : String) :
    Takes assembler limit ⟨current, enclosing, renamings⟩ (.declaration text)
      ⟨assembler.addDeclaration current (Declaration.ofText text), enclosing, renamings⟩
  | opening (current : β) (enclosing : List (String × β)) (renamings : Nat) (selector : String)
    (hlimit : enclosing.length + 1 ≤ limit.toNat) :
    Takes assembler limit ⟨current, enclosing, renamings⟩ (.opening selector)
      ⟨assembler.empty, (selector, current) :: enclosing, renamings⟩
  | unmatched (current : β) (renamings : Nat) :
    Takes assembler limit ⟨current, [], renamings⟩ .closing ⟨current, [], renamings⟩
  | closing (current : β) (selector : String) (outer : β) (rest : List (String × β))
    (renamings : Nat) :
    Takes assembler limit ⟨current, (selector, outer) :: rest, renamings⟩ .closing
      ⟨(assembler.nest selector (assembler.complete current) outer).block, rest,
        renamings + (assembler.nest selector (assembler.complete current) outer).renamings⟩

theorem takes_of_take {token : Token} {next : Assembly β}
    (h : take assembler limit assembly token = .ok next) :
    Takes assembler limit assembly token next := by
  obtain ⟨current, enclosing, renamings⟩ := assembly
  cases token with
  | comment text =>
    obtain rfl := Except.ok.inj h
    exact .comment current enclosing renamings text
  | declaration text =>
    obtain rfl := Except.ok.inj h
    exact .declaration current enclosing renamings text
  | opening selector =>
    by_cases hlimit : depth ⟨current, enclosing, renamings⟩ + 1 ≤ limit.toNat
    · rw [take_opening hlimit] at h
      obtain rfl := Except.ok.inj h
      exact .opening current enclosing renamings selector hlimit
    · rw [take_opening_of_lt (Nat.lt_of_not_le hlimit)] at h
      cases h
  | closing =>
    cases enclosing with
    | nil =>
      rw [take_closing_nil rfl] at h
      obtain rfl := Except.ok.inj h
      exact .unmatched current renamings
    | cons level rest =>
      rw [take_closing_cons rfl] at h
      obtain rfl := Except.ok.inj h
      exact .closing current level.1 level.2 rest renamings

/-- Taking in several tokens is taking in the first of them and then the others. -/
theorem exists_takes_of_foldlM {token : Token} {rest : List Token} {last : Assembly β}
    (h : (token :: rest).foldlM (take assembler limit) assembly = .ok last) :
    ∃ next, Takes assembler limit assembly token next ∧
      rest.foldlM (take assembler limit) next = .ok last := by
  rw [List.foldlM_cons] at h
  cases htake : take assembler limit assembly token with
  | error error =>
    rw [htake] at h
    cases h
  | ok next =>
    rw [htake] at h
    exact ⟨next, takes_of_take htake, h⟩

theorem step_fst (lexeme : Lexeme) :
    (step assembler limit assembly lexeme).1 = take assembler limit assembly lexeme.token := by
  obtain ⟨token, stop, events⟩ := lexeme
  rw [take, step, step]
  cases token with
  | comment => rfl
  | declaration => rfl
  | opening selector =>
    by_cases h : assembly.depth + 1 > limit.toNat
    · simp only [if_pos h]
    · simp only [if_neg h]
  | closing => cases close assembler assembly <;> rfl

theorem run_fst (lexemes : List Lexeme) :
    (run assembler limit assembly lexemes).1 =
      (lexemes.map Lexeme.token).foldlM (take assembler limit) assembly := by
  induction lexemes generalizing assembly with
  | nil => rfl
  | cons lexeme rest ih =>
    rw [run, List.map_cons, List.foldlM_cons, ← step_fst]
    rcases step assembler limit assembly lexeme with ⟨_ | next, events⟩
    · rfl
    · exact ih

theorem finish_fst (current : β) (enclosing : List (String × β)) (renamings : Nat) :
    (finish assembler current enclosing renamings).1.1 = collapse assembler current enclosing := by
  induction enclosing generalizing current renamings with
  | nil => rfl
  | cons level rest ih => exact ih _ _

end Assembly

/-- The block that the tokens of a style sheet make. -/
def assembled (assembler : Assembler β) (limit : UInt64) (tokens : List Token) : Except Error β :=
  (tokens.foldlM (Assembly.take assembler limit) { current := assembler.empty }).map fun assembly =>
    Assembly.collapse assembler assembly.current assembly.enclosing

theorem assemble_fst (assembler : Assembler β) (limit : UInt64) (lexing : Lexing) :
    (assemble assembler limit lexing).1.map Prod.fst =
      assembled assembler limit (lexing.lexemes.map Lexeme.token) := by
  rw [assembled, ← Assembly.run_fst, assemble]
  rcases Assembly.run assembler limit { current := assembler.empty } lexing.lexemes with
    ⟨_ | assembly, events⟩
  · rfl
  · exact congrArg Except.ok (Assembly.finish_fst _ _ _)

theorem Settings.source_eq_self {settings : Settings} (h : settings.stripComments = false)
    (css : String) : settings.source css = css := by
  rw [source, if_neg (by simp [h])]

namespace Sheet

/-- Reading a listing is assembling the tokens of the text that is read. -/
theorem parse_ordered {settings : Settings} (h : settings.ordered = true) (css : String) :
    parse settings css =
      (assembled (Listing.assembler settings.keepsComments) settings.maxDepth
        (tokens (settings.source css))).map .listed := by
  rw [tokens, ← assemble_fst, parse, parseLogged, parseSource, if_pos h]
  rcases assemble (Listing.assembler settings.keepsComments) settings.maxDepth
    (Lexing.ofText (settings.source css)) with ⟨_ | _, events⟩ <;> rfl

theorem parse_keyed {settings : Settings} (h : settings.ordered = false) (css : String) :
    parse settings css =
      (assembled (Block.assembler settings.split) settings.maxDepth
        (tokens (settings.source css))).map .keyed := by
  rw [tokens, ← assemble_fst, parse, parseLogged, parseSource, if_neg (by simp [h])]
  rcases assemble (Block.assembler settings.split) settings.maxDepth
    (Lexing.ofText (settings.source css)) with ⟨_ | _, events⟩ <;> rfl

theorem exists_assembled_of_parse_ordered {settings : Settings} {css : String} {sheet : Sheet}
    (hordered : settings.ordered = true) (h : parse settings css = .ok sheet) :
    ∃ listing, sheet = .listed listing ∧
      assembled (Listing.assembler settings.keepsComments) settings.maxDepth
        (tokens (settings.source css)) = .ok listing := by
  rw [parse_ordered hordered] at h
  cases hassembled : assembled (Listing.assembler settings.keepsComments) settings.maxDepth
      (tokens (settings.source css)) with
  | error error =>
    rw [hassembled] at h
    cases h
  | ok listing =>
    rw [hassembled] at h
    exact ⟨listing, (Except.ok.inj h).symm, rfl⟩

theorem exists_assembled_of_parse_keyed {settings : Settings} {css : String} {sheet : Sheet}
    (hordered : settings.ordered = false) (h : parse settings css = .ok sheet) :
    ∃ block, sheet = .keyed block ∧
      assembled (Block.assembler settings.split) settings.maxDepth
        (tokens (settings.source css)) = .ok block := by
  rw [parse_keyed hordered] at h
  cases hassembled : assembled (Block.assembler settings.split) settings.maxDepth
      (tokens (settings.source css)) with
  | error error =>
    rw [hassembled] at h
    cases h
  | ok block =>
    rw [hassembled] at h
    exact ⟨block, (Except.ok.inj h).symm, rfl⟩

theorem assembled_of_parse {settings : Settings} {css : String} {block : Block}
    (h : parse settings css = .ok (.keyed block)) :
    assembled (Block.assembler settings.split) settings.maxDepth (tokens (settings.source css)) =
      .ok block := by
  cases hordered : settings.ordered with
  | true =>
    obtain ⟨listing, hlisted, -⟩ := exists_assembled_of_parse_ordered hordered h
    cases hlisted
  | false =>
    obtain ⟨found, hkeyed, hassembled⟩ := exists_assembled_of_parse_keyed hordered h
    rwa [Sheet.keyed.inj hkeyed]

end Sheet

end StyleTree
