import Mathlib.Data.List.Induction
import StyleTree.Proofs.Assembly.Depth
import StyleTree.Proofs.Token.Stream

/-!
# The limit of nesting

Reading a style sheet fails for one reason only: at some point more blocks are open than the limit
allows. Whether that happens can be told from the running depth of the prefixes of its tokens.
-/

namespace StyleTree

/-- Of `tokens`, with `depth` blocks open before them, no prefix leaves more than `limit` blocks
open. -/
def Within (limit depth : Nat) (tokens : List Token) : Prop :=
  ∀ taken, taken <+: tokens → runningDepth depth taken ≤ limit

theorem within_cons {limit depth : Nat} {token : Token} {rest : List Token} :
    Within limit depth (token :: rest) ↔
      depth ≤ limit ∧ Within limit (token.depthAfter depth) rest := by
  constructor
  · intro h
    refine ⟨h [] List.nil_prefix, fun taken htaken => ?_⟩
    exact h (token :: taken) (List.prefix_cons_iff.2 (.inr ⟨taken, rfl, htaken⟩))
  · rintro ⟨hdepth, hrest⟩ taken htaken
    rcases List.prefix_cons_iff.1 htaken with rfl | ⟨others, rfl, hothers⟩
    · exact hdepth
    · exact hrest others hothers

/-- Tokens that go beyond the limit do so at an opening brace. -/
theorem exists_opening_of_lt {limit depth : Nat} (hdepth : depth ≤ limit) {taken : List Token}
    (h : limit < runningDepth depth taken) :
    ∃ front selector, front ++ [.opening selector] <+: taken ∧
      limit < runningDepth depth (front ++ [.opening selector]) := by
  induction taken using List.reverseRecOn with
  | nil => exact absurd h (Nat.not_lt.2 hdepth)
  | append_singleton front token ih =>
    -- Any other token at the end could be left out, since it does not add to the depth.
    have hfront : token.depthAfter (runningDepth depth front) ≤ runningDepth depth front →
        ∃ first selector, first ++ [.opening selector] <+: front ++ [token] ∧
          limit < runningDepth depth (first ++ [.opening selector]) := by
      intro hle
      have hlast : runningDepth depth (front ++ [token]) =
          token.depthAfter (runningDepth depth front) := List.foldl_append
      obtain ⟨first, selector, hstart, hlimit⟩ := ih (by omega)
      exact ⟨first, selector, hstart.trans (List.prefix_append _ _), hlimit⟩
    cases token with
    | opening selector => exact ⟨front, selector, List.prefix_rfl, h⟩
    | closing => exact hfront (Nat.sub_le _ _)
    | comment text => exact hfront (Nat.le_refl _)
    | declaration text => exact hfront (Nat.le_refl _)

namespace Assembly

variable {β : Type} {assembler : Assembler β} {limit larger : UInt64}
  {assembly next : Assembly β} {tokens : List Token}

/-- A token that leads beyond the limit is not taken in. -/
theorem take_of_lt {token : Token} (hdepth : assembly.depth ≤ limit.toNat)
    (h : limit.toNat < token.depthAfter assembly.depth) :
    take assembler limit assembly token = .error (.tooDeep limit) := by
  cases token with
  | opening selector => exact take_opening_of_lt h
  | closing => exact absurd h (Nat.not_lt.2 (Nat.le_trans (Nat.sub_le _ _) hdepth))
  | comment text => exact absurd h (Nat.not_lt.2 hdepth)
  | declaration text => exact absurd h (Nat.not_lt.2 hdepth)

theorem exists_take_eq_ok {token : Token} (h : token.depthAfter assembly.depth ≤ limit.toNat) :
    ∃ next, take assembler limit assembly token = .ok next := by
  cases token with
  | opening selector => exact ⟨_, take_opening h⟩
  | closing =>
    cases henclosing : assembly.enclosing with
    | nil => exact ⟨_, take_closing_nil henclosing⟩
    | cons level rest => exact ⟨_, take_closing_cons henclosing⟩
  | comment text => exact ⟨_, take_comment text⟩
  | declaration text => exact ⟨_, take_declaration text⟩

/-- Tokens that stay within the limit are taken in. -/
theorem exists_foldlM_eq_ok (h : Within limit.toNat assembly.depth tokens) :
    ∃ last, tokens.foldlM (take assembler limit) assembly = .ok last := by
  induction tokens generalizing assembly with
  | nil => exact ⟨assembly, rfl⟩
  | cons token rest ih =>
    obtain ⟨-, hrest⟩ := within_cons.1 h
    obtain ⟨next, hnext⟩ : ∃ next, take assembler limit assembly token = .ok next :=
      exists_take_eq_ok (hrest [] List.nil_prefix)
    rw [← (takes_of_take hnext).depth_eq] at hrest
    obtain ⟨last, hlast⟩ := ih hrest
    exact ⟨last, by rw [List.foldlM_cons, hnext]; exact hlast⟩

/-- Tokens that do not stay within the limit are not. -/
theorem foldlM_eq_error (hdepth : assembly.depth ≤ limit.toNat)
    (h : ¬Within limit.toNat assembly.depth tokens) :
    tokens.foldlM (take assembler limit) assembly = .error (.tooDeep limit) := by
  induction tokens generalizing assembly with
  | nil =>
    refine absurd (fun taken htaken => ?_) h
    rw [List.prefix_nil.1 htaken]
    exact hdepth
  | cons token rest ih =>
    rw [List.foldlM_cons]
    by_cases htoken : token.depthAfter assembly.depth ≤ limit.toNat
    · obtain ⟨next, hnext⟩ : ∃ next, take assembler limit assembly token = .ok next :=
        exists_take_eq_ok htoken
      rw [hnext]
      refine ih ?_ fun hrest => h (within_cons.2 ⟨hdepth, ?_⟩)
      · rwa [(takes_of_take hnext).depth_eq]
      · rwa [(takes_of_take hnext).depth_eq] at hrest
    · rw [take_of_lt hdepth (Nat.lt_of_not_le htoken)]
      rfl

/-- A token that was taken in is taken in alike where more blocks may be open. -/
theorem Takes.take_eq {token : Token} (h : Takes assembler limit assembly token next)
    (hle : limit ≤ larger) : take assembler larger assembly token = .ok next := by
  cases h with
  | comment current enclosing renamings text => exact take_comment text
  | declaration current enclosing renamings text => exact take_declaration text
  | opening current enclosing renamings selector hlimit =>
    exact take_opening (Nat.le_trans hlimit hle)
  | unmatched current renamings => exact take_closing_nil rfl
  | closing current selector outer rest renamings => exact take_closing_cons rfl

theorem foldlM_mono (hle : limit ≤ larger)
    (h : tokens.foldlM (take assembler limit) assembly = .ok next) :
    tokens.foldlM (take assembler larger) assembly = .ok next := by
  induction tokens generalizing assembly with
  | nil => exact h
  | cons token rest ih =>
    obtain ⟨after, htakes, hrest⟩ := exists_takes_of_foldlM h
    rw [List.foldlM_cons, htakes.take_eq hle]
    exact ih hrest

end Assembly

/-! ### Results -/

section

variable {β : Type} {assembler : Assembler β} {limit larger : UInt64} {tokens : List Token}

theorem exists_assembled_eq_ok (h : Within limit.toNat 0 tokens) :
    ∃ result, assembled assembler limit tokens = .ok result := by
  obtain ⟨last, hlast⟩ : ∃ last, tokens.foldlM (Assembly.take assembler limit)
      { current := assembler.empty } = .ok last := Assembly.exists_foldlM_eq_ok h
  exact ⟨_, by rw [assembled, hlast]; rfl⟩

theorem assembled_eq_error (h : ¬Within limit.toNat 0 tokens) :
    assembled assembler limit tokens = .error (.tooDeep limit) := by
  rw [assembled, Assembly.foldlM_eq_error (Nat.zero_le _) h]
  rfl

theorem assembled_mono (hle : limit ≤ larger) {result : β}
    (h : assembled assembler limit tokens = .ok result) :
    assembled assembler larger tokens = .ok result := by
  rw [assembled] at h
  cases hrun : tokens.foldlM (Assembly.take assembler limit) { current := assembler.empty } with
  | error error =>
    rw [hrun] at h
    cases h
  | ok last =>
    rw [hrun] at h
    rw [assembled, Assembly.foldlM_mono hle hrun]
    exact h

end

namespace Sheet

/-- Either kind of style sheet is assembled from the tokens of the text that is read, in a way that
does not depend on the limit. -/
theorem exists_parse_eq (settings : Settings) :
    ∃ (β : Type) (assembler : Assembler β) (sheet : β → Sheet), ∀ limit css,
      parse { settings with maxDepth := limit } css =
        (assembled assembler limit (tokens (settings.source css))).map sheet := by
  rcases Bool.eq_false_or_eq_true settings.ordered with hordered | hordered
  · have h : ∀ limit, ({ settings with maxDepth := limit } : Settings).ordered = true :=
      fun _ => hordered
    exact ⟨_, Listing.assembler settings.keepsComments, .listed,
      fun limit css => parse_ordered (h limit) css⟩
  · have h : ∀ limit, ({ settings with maxDepth := limit } : Settings).ordered = false :=
      fun _ => hordered
    exact ⟨_, Block.assembler settings.split, .keyed,
      fun limit css => parse_keyed (h limit) css⟩

theorem exists_parse_eq_ok {settings : Settings} {css : String}
    (h : Within settings.maxDepth.toNat 0 (tokens (settings.source css))) :
    ∃ sheet, parse settings css = .ok sheet := by
  obtain ⟨β, assembler, sheet, hparse⟩ := exists_parse_eq settings
  obtain ⟨result, hresult⟩ : ∃ result, assembled assembler settings.maxDepth
      (tokens (settings.source css)) = .ok result := exists_assembled_eq_ok h
  exact ⟨sheet result, by rw [hparse settings.maxDepth css, hresult]; rfl⟩

theorem parse_eq_error {settings : Settings} {css : String}
    (h : ¬Within settings.maxDepth.toNat 0 (tokens (settings.source css))) :
    parse settings css = .error (.tooDeep settings.maxDepth) := by
  obtain ⟨β, assembler, sheet, hparse⟩ := exists_parse_eq settings
  rw [hparse settings.maxDepth css, assembled_eq_error h]
  rfl

theorem parse_mono {settings : Settings} {limit : UInt64} (hle : settings.maxDepth ≤ limit)
    {css : String} {sheet : Sheet} (h : parse settings css = .ok sheet) :
    parse { settings with maxDepth := limit } css = .ok sheet := by
  obtain ⟨β, assembler, toSheet, hparse⟩ := exists_parse_eq settings
  have hfirst := hparse settings.maxDepth css
  rw [hparse limit css]
  cases hassembled : assembled assembler settings.maxDepth (tokens (settings.source css)) with
  | error error =>
    rw [hassembled, h] at hfirst
    cases hfirst
  | ok result =>
    rw [hassembled, h] at hfirst
    rw [assembled_mono hle hassembled, hfirst]

/-- What goes beyond the limit does so whatever comes after it. -/
theorem not_within_append {limit : Nat} {css : String} (h : ¬Within limit 0 (tokens css))
    (more : String) : ¬Within limit 0 (tokens (css ++ more)) := by
  obtain ⟨taken, htaken⟩ := Classical.not_forall.1 h
  obtain ⟨hstart, hlimit⟩ := Classical.not_imp.1 htaken
  obtain ⟨front, selector, hfront, hlt⟩ :=
    exists_opening_of_lt (Nat.zero_le limit) (Nat.lt_of_not_le hlimit)
  intro hwithin
  refine absurd (hwithin (front ++ [.opening selector]) ?_) (Nat.not_le.2 hlt)
  rw [tokens_eq_tokensOf, String.toList_append]
  exact prefix_tokensOf_append (hfront.trans hstart) (by simp) more.toList

/-- Reading a style sheet fails exactly if the tokens of the text that is read have a prefix after
which more blocks are open than the limit allows; otherwise it succeeds, whatever the style sheet is
read into. So what is read within a limit is read alike within every higher one, and what goes
beyond the limit does so whatever comes after it, unless comments are removed first. -/
theorem parse_eq_tooDeep_iff (settings : Settings) (css : String) :
    (parse settings css = .error (.tooDeep settings.maxDepth) ↔
        ∃ taken, taken <+: tokens (settings.source css) ∧
          settings.maxDepth.toNat < runningDepth 0 taken) ∧
      (parse settings css ≠ .error (.tooDeep settings.maxDepth) →
        ∃ sheet, parse settings css = .ok sheet) ∧
      (∀ ordered comments split : Bool,
        (∃ sheet, parse settings css = .ok sheet) ↔
          ∃ sheet, parse { settings with ordered, comments, split } css = .ok sheet) ∧
      (∀ sheet, parse settings css = .ok sheet → ∀ limit, settings.maxDepth ≤ limit →
        parse { settings with maxDepth := limit } css = .ok sheet) ∧
      (settings.stripComments = false → ∀ error, parse settings css = .error error →
        ∀ more, parse settings (css ++ more) = .error error) := by
  -- Whether reading succeeds is a matter of the depth alone, and so are the other statements.
  have hiff : ∀ settings : Settings, ∀ css,
      (∃ sheet, parse settings css = .ok sheet) ↔
        Within settings.maxDepth.toNat 0 (tokens (settings.source css)) := by
    refine fun settings css => ⟨?_, exists_parse_eq_ok⟩
    rintro ⟨sheet, hsheet⟩
    by_contra h
    rw [parse_eq_error h] at hsheet
    cases hsheet
  refine ⟨⟨?_, ?_⟩, ?_, ?_, fun sheet hsheet limit hle => parse_mono hle hsheet, ?_⟩
  · intro h
    by_contra hnone
    obtain ⟨sheet, hsheet⟩ := (hiff settings css).2 fun taken htaken =>
      Nat.le_of_not_lt fun hlt => hnone ⟨taken, htaken, hlt⟩
    rw [hsheet] at h
    cases h
  · rintro ⟨taken, htaken, hlt⟩
    exact parse_eq_error fun h => absurd (h taken htaken) (Nat.not_le.2 hlt)
  · intro h
    by_contra hnone
    exact h (parse_eq_error fun hwithin => hnone ((hiff settings css).2 hwithin))
  · intro ordered comments split
    exact (hiff settings css).trans (hiff { settings with ordered, comments, split } css).symm
  · intro hstrip error herror more
    have hnot : ¬Within settings.maxDepth.toNat 0 (tokens css) := by
      intro hwithin
      obtain ⟨sheet, hsheet⟩ := exists_parse_eq_ok (settings.source_eq_self hstrip css ▸ hwithin)
      rw [hsheet] at herror
      cases herror
    -- The tokens up to the one that is too deep are the first tokens of the longer text too.
    have hmore : parse settings (css ++ more) = .error (.tooDeep settings.maxDepth) := by
      apply parse_eq_error
      rw [settings.source_eq_self hstrip]
      exact not_within_append hnot more
    have hfirst : parse settings css = .error (.tooDeep settings.maxDepth) := by
      apply parse_eq_error
      rwa [settings.source_eq_self hstrip]
    rw [hmore, ← hfirst, herror]

/-- Two blocks, one in the other, within a limit of two and beyond a limit of one, where nothing
that comes later helps. -/
theorem parse_eq_tooDeep_two :
    parse { maxDepth := 1 } "a \x7b b \x7b" = .error (.tooDeep 1) ∧
      parse { maxDepth := 1 } ("a \x7b b \x7b" ++ "\x7d \x7d c: d;") = .error (.tooDeep 1) ∧
      parse { maxDepth := 3 } "a \x7b b \x7b" =
        .ok (.keyed ⟨[("a", ⟨[("b", {})], [], []⟩)], [], []⟩) := by
  have hone : parse { maxDepth := 1 } "a \x7b b \x7b" = .error (.tooDeep 1) := by
    refine (parse_eq_tooDeep_iff { maxDepth := 1 } "a \x7b b \x7b").1.2
      ⟨[.opening "a", .opening "b"], ?_⟩
    decide +kernel
  have htwo : parse { maxDepth := 2 } "a \x7b b \x7b" =
      .ok (.keyed ⟨[("a", ⟨[("b", {})], [], []⟩)], [], []⟩) := by decide +kernel
  exact ⟨hone, (parse_eq_tooDeep_iff { maxDepth := 1 } _).2.2.2.2 rfl _ hone _,
    (parse_eq_tooDeep_iff { maxDepth := 2 } _).2.2.2.1 _ htwo 3 (by decide)⟩

end Sheet

end StyleTree
