import StyleTree.Proofs.Assembly.Outcome
import StyleTree.Proofs.Token.Walk

namespace StyleTree

namespace Event

/-- Whether the event says that a block was stored under another key than its selector. -/
def isRenaming : Event → Bool
  | .renamed .. => true
  | _ => false

/-- Whether the event says that a style sheet was read to its end. -/
def isEnd : Event → Bool
  | .finished .. => true
  | _ => false

/-- The character that the wording of an event starts with. -/
def initial : Event → Char
  | .strayMark .. => 'S'
  | .unclosedComment .. => 'U'
  | .unfinishedText .. => 'I'
  | .unmatchedBrace .. => 'S'
  | .tooDeep .. => 'C'
  | .noSelector .. => 'D'
  | .renamed .. => 'D'
  | .finished .. => 'P'

theorem head?_message (event : Event) : event.message.toList.head? = some event.initial := by
  cases event <;> (delta message; simp [initial])

/-- Renamings can be told from the other reports by their level and their wording. -/
theorem isRenaming_iff {event : Event} : event.isRenaming = true ↔
    event.level = .trace ∧ ∃ rest, event.message = "Duplicate selector " ++ rest := by
  constructor
  · intro h
    cases event with
    | renamed selector key =>
      refine ⟨rfl, Text.quoted selector ++ " stored as " ++ Text.quoted key, ?_⟩
      delta message
      simp only [String.append_assoc]
    | _ => cases h
  · rintro ⟨hlevel, rest, hrest⟩
    have hinitial := head?_message event
    rw [hrest, String.toList_append] at hinitial
    cases event with
    | renamed => rfl
    | strayMark => simp [initial] at hinitial
    | _ => cases hlevel

/-- So can the report of the end. -/
theorem isEnd_iff {event : Event} : event.isEnd = true ↔
    event.level = .debug ∧ ∃ rest, event.message = "Parsed " ++ rest := by
  constructor
  · intro h
    cases event with
    | finished bytes renamings =>
      refine ⟨rfl, toString bytes ++ " bytes of CSS (" ++ toString renamings ++
        " duplicate selectors renamed)", ?_⟩
      delta message
      simp only [String.append_assoc]
    | _ => cases h
  · rintro ⟨hlevel, rest, hrest⟩
    have hinitial := head?_message event
    rw [hrest, String.toList_append] at hinitial
    cases event with
    | finished => rfl
    | _ => simp [initial] at hinitial

end Event

/-! ### What is counted -/

/-- Reports with a number of renamings among them. None of them is that of the end. -/
structure Tallies (renamings : Nat) (events : List Event) : Prop where
  countP_eq : events.countP Event.isRenaming = renamings
  not_isEnd : ∀ event ∈ events, event.isEnd = false

theorem tallies_nil : Tallies 0 [] :=
  ⟨rfl, fun _ h => absurd h List.not_mem_nil⟩

theorem Tallies.append {renamings more : Nat} {events others : List Event}
    (h : Tallies renamings events) (hothers : Tallies more others) :
    Tallies (renamings + more) (events ++ others) where
  countP_eq := by rw [List.countP_append, h.countP_eq, hothers.countP_eq]
  not_isEnd := List.forall_mem_append.2 ⟨h.not_isEnd, hothers.not_isEnd⟩

/-- The reports of the lexer are no renamings. -/
theorem tallies_of_offset? {events : List Event}
    (h : ∀ event ∈ events, ∃ place, event.offset? = some place) : Tallies 0 events where
  countP_eq := by
    refine List.countP_eq_zero.2 fun event hevent => ?_
    obtain ⟨place, hplace⟩ := h event hevent
    cases event <;> simp_all [Event.isRenaming, Event.offset?]
  not_isEnd := by
    intro event hevent
    obtain ⟨place, hplace⟩ := h event hevent
    cases event <;> simp_all [Event.isEnd, Event.offset?]

/-- Nesting a block reports each renaming that it counts, and nothing else that is counted. -/
def Assembler.IsTallied {β : Type} (assembler : Assembler β) : Prop :=
  ∀ selector child block,
    Tallies (assembler.nest selector child block).renamings
      (assembler.nest selector child block).events

theorem Listing.isTallied_assembler (keepComments : Bool) :
    (assembler keepComments).IsTallied :=
  fun _ _ _ => tallies_nil

theorem Block.tallies_nestUnder (block child : Block) (selector : String) :
    Tallies (block.nestUnder child selector).renamings
      (block.nestUnder child selector).events := by
  rw [nestUnder]
  dsimp only
  split_ifs
  · exact ⟨rfl, List.forall_mem_singleton.2 rfl⟩
  · exact tallies_nil

theorem Block.tallies_nestUnderEach (block child : Block) (selectors : List String) :
    Tallies (block.nestUnderEach child selectors).renamings
      (block.nestUnderEach child selectors).events := by
  induction selectors generalizing block with
  | nil => exact tallies_nil
  | cons selector rest ih => exact (tallies_nestUnder block child selector).append (ih _)

theorem Block.isTallied_assembler (split : Bool) : (assembler split).IsTallied := by
  intro selector child block
  have hnest : (assembler split).nest = nest split := rfl
  rw [hnest, nest]
  split
  · exact ⟨rfl, List.forall_mem_singleton.2 rfl⟩
  · exact tallies_nestUnderEach block child _

/-! ### Steps and runs -/

namespace Assembly

variable {β : Type} {assembler : Assembler β} {limit : UInt64}

/-- What one token adds to the number of renamings is what it reports. -/
theorem exists_tallies_step (h : assembler.IsTallied) {assembly next : Assembly β}
    {lexeme : Lexeme} {events : List Event}
    (hstep : step assembler limit assembly lexeme = (.ok next, events)) :
    ∃ more, next.renamings = assembly.renamings + more ∧ Tallies more events := by
  obtain ⟨current, enclosing, renamings⟩ := assembly
  obtain ⟨token, stop, noticed⟩ := lexeme
  cases token with
  | comment text =>
    obtain ⟨hnext, rfl⟩ := Prod.mk.inj hstep
    obtain rfl := Except.ok.inj hnext
    exact ⟨0, rfl, tallies_nil⟩
  | declaration text =>
    obtain ⟨hnext, rfl⟩ := Prod.mk.inj hstep
    obtain rfl := Except.ok.inj hnext
    exact ⟨0, rfl, tallies_nil⟩
  | opening selector =>
    rw [step] at hstep
    dsimp only at hstep
    split_ifs at hstep
    · cases (Prod.mk.inj hstep).1
    · obtain ⟨hnext, rfl⟩ := Prod.mk.inj hstep
      obtain rfl := Except.ok.inj hnext
      exact ⟨0, rfl, tallies_nil⟩
  | closing =>
    cases enclosing with
    | nil =>
      obtain ⟨hnext, rfl⟩ := Prod.mk.inj hstep
      obtain rfl := Except.ok.inj hnext
      -- A brace that closes nothing is reported, but not as a renaming.
      exact ⟨0, rfl, rfl, List.forall_mem_singleton.2 rfl⟩
    | cons level rest =>
      obtain ⟨hnext, rfl⟩ := Prod.mk.inj hstep
      obtain rfl := Except.ok.inj hnext
      exact ⟨_, rfl, h level.1 (assembler.complete current) level.2⟩

/-- So is what several tokens add, where the lexer has reported nothing that is counted. -/
theorem exists_tallies_run (h : assembler.IsTallied) {assembly last : Assembly β}
    {lexemes : List Lexeme} (hlexemes : ∀ lexeme ∈ lexemes, Tallies 0 lexeme.events)
    {events : List Event} (hrun : run assembler limit assembly lexemes = (.ok last, events)) :
    ∃ more, last.renamings = assembly.renamings + more ∧ Tallies more events := by
  induction lexemes generalizing assembly events with
  | nil =>
    obtain ⟨hlast, rfl⟩ := Prod.mk.inj hrun
    obtain rfl := Except.ok.inj hlast
    exact ⟨0, rfl, tallies_nil⟩
  | cons lexeme rest ih =>
    obtain ⟨hnoticed, hrest⟩ := List.forall_mem_cons.1 hlexemes
    rw [run] at hrun
    cases hstep : step assembler limit assembly lexeme with
    | mk result reported =>
      rw [hstep] at hrun
      cases result with
      | error error => cases (Prod.mk.inj hrun).1
      | ok next =>
        obtain ⟨hlast, rfl⟩ := Prod.mk.inj hrun
        obtain ⟨first, hfirst, htallies⟩ := exists_tallies_step h hstep
        obtain ⟨more, hmore, hothers⟩ := ih hrest (Prod.ext hlast rfl)
        refine ⟨first + more, by rw [hmore, hfirst, Nat.add_assoc], ?_⟩
        have hall := (hnoticed.append htallies).append hothers
        rwa [Nat.zero_add] at hall

/-- So is what closing the open blocks adds. -/
theorem exists_tallies_finish (h : assembler.IsTallied) (current : β)
    (enclosing : List (String × β)) (renamings : Nat) :
    ∃ more, (finish assembler current enclosing renamings).1.2 = renamings + more ∧
      Tallies more (finish assembler current enclosing renamings).2 := by
  induction enclosing generalizing current renamings with
  | nil => exact ⟨0, rfl, tallies_nil⟩
  | cons level rest ih =>
    obtain ⟨selector, outer⟩ := level
    have hnest := h selector (assembler.complete current) outer
    obtain ⟨more, hmore, hothers⟩ := ih
      (assembler.nest selector (assembler.complete current) outer).block
      (renamings + (assembler.nest selector (assembler.complete current) outer).renamings)
    refine ⟨_, ?_, hnest.append hothers⟩
    rw [← Nat.add_assoc, ← hmore]
    rfl

end Assembly

/-- The number of renamings of a style sheet is that of their reports, and nothing else that was
reported reads like them or like the end. -/
theorem tallies_assemble {β : Type} {assembler : Assembler β} (h : assembler.IsTallied)
    {limit : UInt64} {css : String} {block : β} {renamings : Nat} {events : List Event}
    (hassemble : assemble assembler limit (Lexing.ofText css) = (.ok (block, renamings), events)) :
    Tallies renamings events := by
  -- What the lexer reports has an offset, and the report of a renaming has none.
  have hlog : ∀ event ∈ (Lexing.ofText css).log, ∃ place, event.offset? = some place := by
    intro event hevent
    obtain ⟨place, hplace, -⟩ := Cursor.offset_le_of_mem_log hevent
    exact ⟨place, hplace⟩
  rw [Lexing.log, List.forall_mem_append] at hlog
  have hlexemes : ∀ lexeme ∈ (Lexing.ofText css).lexemes, Tallies 0 lexeme.events :=
    fun lexeme hlexeme => tallies_of_offset? fun event hevent =>
      hlog.1 event (List.mem_flatMap.2 ⟨lexeme, hlexeme, hevent⟩)
  rw [assemble] at hassemble
  cases hrun : Assembly.run assembler limit { current := assembler.empty }
      (Lexing.ofText css).lexemes with
  | mk result reported =>
    rw [hrun] at hassemble
    cases result with
    | error error => cases (Prod.mk.inj hassemble).1
    | ok assembly =>
      obtain ⟨hresult, rfl⟩ := Prod.mk.inj hassemble
      obtain ⟨more, hmore, hreported⟩ := Assembly.exists_tallies_run h hlexemes hrun
      obtain ⟨others, hothers, hclosing⟩ := Assembly.exists_tallies_finish h assembly.current
        assembly.enclosing assembly.renamings
      have hnumber : more + 0 + others = renamings := by
        have hlast := congrArg Prod.snd (Except.ok.inj hresult)
        rw [hothers, hmore] at hlast
        simpa using hlast
      rw [← hnumber]
      exact (hreported.append (tallies_of_offset? hlog.2)).append hclosing

end StyleTree
