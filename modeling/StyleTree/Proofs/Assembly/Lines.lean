import StyleTree.Proofs.Assembly.Outcome
import StyleTree.Proofs.Token.Fragment

namespace StyleTree

variable {β : Type}

namespace Assembly

/-- The open blocks after the tokens of a text. -/
def read (assembler : Assembler β) (limit : UInt64) (assembly : Assembly β) (text : List Char) :
    Except Error (Assembly β) :=
  (tokensOf text).foldlM (take assembler limit) assembly

variable {assembler : Assembler β} {limit : UInt64} {current : β}
  {enclosing : List (String × β)} {renamings : Nat}

theorem read_nil (assembly : Assembly β) : read assembler limit assembly [] = .ok assembly := by
  have hnil : tokensOf [] = [] := by decide +kernel
  rw [read, hnil]
  rfl

theorem read_newline_cons (assembly : Assembly β) (more : List Char) :
    read assembler limit assembly ('\n' :: more) = read assembler limit assembly more := by
  rw [read, Css.tokensOf_newline_cons, read]

/-- A blank line, where there is one, is passed over. -/
theorem read_blank (between : Bool) (assembly : Assembly β) (more : List Char) :
    read assembler limit assembly ((if between then ['\n'] else []) ++ more) =
      read assembler limit assembly more := by
  cases between with
  | false => rfl
  | true => exact read_newline_cons assembly more

theorem read_comment {text : String} (h : Css.IsComment text) (depth : Nat) (more : List Char) :
    read assembler limit ⟨current, enclosing, renamings⟩ (Css.line depth text.toList ++ more) =
      read assembler limit ⟨assembler.addComment current text, enclosing, renamings⟩ more := by
  rw [read, h.tokensOf_line, List.foldlM_cons, take_comment]
  rfl

theorem read_statement {text : String} (h : Css.IsStatement text) (depth : Nat)
    (more : List Char) :
    read assembler limit ⟨current, enclosing, renamings⟩ (Css.line depth text.toList ++ more) =
      read assembler limit
        ⟨assembler.addDeclaration current (.statement text), enclosing, renamings⟩ more := by
  obtain ⟨content, hcontent, htokens⟩ := h.tokensOf_line depth more
  rw [read, htokens, List.foldlM_cons, take_declaration, hcontent]
  rfl

theorem read_property {name value : String} (h : Css.IsProperty name value) (depth : Nat)
    (more : List Char) :
    read assembler limit ⟨current, enclosing, renamings⟩
        (Css.property depth name value ++ more) =
      read assembler limit
        ⟨assembler.addDeclaration current (.property name value), enclosing, renamings⟩ more := by
  obtain ⟨content, hcontent, htokens⟩ := h.tokensOf_line depth more
  rw [read, htokens, List.foldlM_cons, take_declaration, hcontent]
  rfl

/-- A block in braces is nested under its selector if its body is read as `content`. -/
theorem read_enclosed {key selector : String} (h : Css.IsHeading key selector)
    (hcount : key.toList.count '{' ≤ selector.toList.count '{')
    (hlimit : enclosing.length + 1 ≤ limit.toNat) {depth inner : Nat} {body more : List Char}
    {content : β}
    (hbody : read assembler limit ⟨assembler.empty, (selector, current) :: enclosing, renamings⟩
        (body ++ (Css.line depth ['}'] ++ more)) =
      read assembler limit ⟨content, (selector, current) :: enclosing, inner⟩
        (Css.line depth ['}'] ++ more)) :
    read assembler limit ⟨current, enclosing, renamings⟩ (Css.enclosed depth key body ++ more) =
      read assembler limit
        ⟨(assembler.nest selector (assembler.complete content) current).block, enclosing,
          inner + (assembler.nest selector (assembler.complete content) current).renamings⟩
        more := by
  have hopen : take assembler limit ⟨current, enclosing, renamings⟩ (.opening selector) =
      .ok ⟨assembler.empty, (selector, current) :: enclosing, renamings⟩ := take_opening hlimit
  have hclose : take assembler limit ⟨content, (selector, current) :: enclosing, inner⟩ .closing =
      .ok ⟨(assembler.nest selector (assembler.complete content) current).block, enclosing,
        inner + (assembler.nest selector (assembler.complete content) current).renamings⟩ :=
    take_closing_cons rfl
  calc read assembler limit ⟨current, enclosing, renamings⟩ (Css.enclosed depth key body ++ more)
      = read assembler limit ⟨assembler.empty, (selector, current) :: enclosing, renamings⟩
          (body ++ (Css.line depth ['}'] ++ more)) := by
        rw [read, h.tokensOf_enclosed hcount, List.foldlM_cons, hopen]
        rfl
    _ = read assembler limit ⟨content, (selector, current) :: enclosing, inner⟩
          (Css.line depth ['}'] ++ more) := hbody
    _ = _ := by
        rw [read, Css.tokensOf_closing_line, List.foldlM_cons, hclose]
        rfl

end Assembly

/-- What a text is assembled to if all of it is read at the outermost level. -/
theorem assembled_of_read {assembler : Assembler β} {limit : UInt64} {css : String} {content : β}
    {renamings : Nat}
    (h : Assembly.read assembler limit ⟨assembler.empty, [], 0⟩ css.toList =
      .ok ⟨content, [], renamings⟩) :
    assembled assembler limit (tokens css) = .ok (assembler.complete content) := by
  rw [Assembly.read] at h
  rw [assembled, tokens_eq_tokensOf, h]
  rfl

end StyleTree
