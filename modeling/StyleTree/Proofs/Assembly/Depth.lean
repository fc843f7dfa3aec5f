import StyleTree.Proofs.Assembly.Outcome

namespace StyleTree

/-- The number of open blocks after one more token. -/
def Token.depthAfter (depth : Nat) : Token → Nat
  | .opening _ => depth + 1
  | .closing => depth - 1
  | .comment _ => depth
  | .declaration _ => depth

/-- The number of open blocks after some tokens, with `depth` open before them. -/
def runningDepth (depth : Nat) (tokens : List Token) : Nat :=
  tokens.foldl Token.depthAfter depth

/-- The tokens without the closing braces that are met where no block is open. -/
def matched : Nat → List Token → List Token
  | _, [] => []
  | depth, token :: rest =>
    if token = .closing ∧ depth = 0 then matched depth rest
    else token :: matched (token.depthAfter depth) rest

theorem mem_of_mem_matched {depth : Nat} {tokens : List Token} {token : Token}
    (h : token ∈ matched depth tokens) : token ∈ tokens := by
  induction tokens generalizing depth with
  | nil => exact h
  | cons first rest ih =>
    rw [matched] at h
    split at h
    · exact List.mem_cons_of_mem _ (ih h)
    · rcases List.mem_cons.1 h with rfl | hrest
      · exact List.mem_cons_self ..
      · exact List.mem_cons_of_mem _ (ih hrest)

namespace Assembly

variable {β : Type} {assembler : Assembler β} {limit : UInt64} {assembly next : Assembly β}

theorem Takes.depth_eq {token : Token} (h : Takes assembler limit assembly token next) :
    next.depth = token.depthAfter assembly.depth := by
  cases h <;> rfl

/-- The blocks that are open after some tokens are as many as the tokens alone tell. -/
theorem depth_foldlM {tokens : List Token}
    (h : tokens.foldlM (take assembler limit) assembly = .ok next) :
    next.depth = runningDepth assembly.depth tokens := by
  induction tokens generalizing assembly with
  | nil =>
    obtain rfl := Except.ok.inj h
    rfl
  | cons token rest ih =>
    obtain ⟨after, htakes, hrest⟩ := exists_takes_of_foldlM h
    rw [ih hrest, htakes.depth_eq, runningDepth, runningDepth, List.foldl_cons]

end Assembly

end StyleTree
