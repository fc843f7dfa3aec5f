import StyleTree.Proofs.Json.Numbers
import StyleTree.Proofs.Json.RoundTrip

namespace StyleTree.Json

/-! ### Strings -/

theorem ne_of_isPlain {c : Char} (h : isPlain c = true) :
    c ≠ '"' ∧ c ≠ '\\' ∧ ¬c.toNat < 0x20 := by
  simp only [isPlain, Bool.and_eq_true, bne_iff_ne, decide_eq_true_eq] at h
  exact ⟨h.1.1, h.1.2, Nat.not_lt.2 h.2⟩

theorem readUnit_append {digits : List Char} {unit : Nat} (h : IsHex digits unit)
    (more : List Char) : readUnit (digits ++ more) = .ok (unit, more) := by
  have hdigits : fourDigits? (digits ++ more) = some (unit, more) := by
    unfold IsHex fourDigits? at h
    split at h
    · simp only [Option.bind_eq_bind, Option.pure_def, Option.bind_eq_some_iff,
        Option.some.injEq, Prod.mk.injEq] at h
      obtain ⟨first, hfirst, second, hsecond, third, hthird, fourth, hfourth, rfl, rfl⟩ := h
      simp [fourDigits?, hfirst, hsecond, hthird, hfourth]
    · simp at h
  rw [readUnit, hdigits]

theorem readEscape_letter {use : Use} {c meant : Char} (h : escaped? c = some meant)
    (more : List Char) : readEscape use (c :: more) = .ok (meant, more) := by
  have hne : c ≠ 'u' := by
    rintro rfl
    simp [escaped?] at h
  rw [readEscape, h]
  exact hne

theorem readEscape_unit_kept {digits : List Char} {unit : Nat} (h : IsHex digits unit)
    (hleading : isLeading unit = false) (htrailing : isTrailing unit = false)
    (more : List Char) :
    readEscape .kept ('u' :: (digits ++ more)) = .ok (Char.ofNat unit, more) := by
  rw [readEscape, readCodePoint, readUnit_append h]
  simp [hleading, htrailing]

theorem readEscape_unit_skipped {digits : List Char} {unit : Nat} (h : IsHex digits unit)
    (more : List Char) :
    readEscape .skipped ('u' :: (digits ++ more)) = .ok (Char.ofNat unit, more) := by
  rw [readEscape, readCodePoint, readUnit_append h]
  simp

theorem readEscape_pair {high low : List Char} {leading trailing : Nat}
    (hhigh : IsHex high leading) (hleading : isLeading leading = true)
    (hlow : IsHex low trailing) (htrailing : isTrailing trailing = true) (more : List Char) :
    readEscape .kept ('u' :: (high ++ '\\' :: 'u' :: (low ++ more))) =
      .ok (joinHalves leading trailing, more) := by
  have hfirst : isTrailing leading = false := by
    simp only [isLeading, isTrailing, Bool.and_eq_true, Bool.and_eq_false_iff, decide_eq_true_eq,
      decide_eq_false_iff_not] at hleading ⊢
    omega
  rw [readEscape, readCodePoint, readUnit_append hhigh]
  simp [hfirst, hleading, readOtherHalf, readUnit_append hlow, htrailing, joinHalves]

/-- A string is read as the text that it spells. -/
theorem readString_of_spells {text body : List Char} (h : Spells text body) (more : List Char) :
    readString .kept (body ++ '"' :: more) = .ok (text, more) := by
  induction h with
  | nil => rw [List.nil_append, readString]
  | plain hc _ ih =>
    obtain ⟨hquote, hbackslash, hcontrol⟩ := ne_of_isPlain hc
    rw [List.cons_append, readString_cons hquote hbackslash hcontrol, ih]
    rfl
  | letter hc _ ih =>
    simp only [List.cons_append]
    rw [readString_cons_backslash (readEscape_letter hc _), ih]
    rfl
  | unit hdigits hleading htrailing _ ih =>
    simp only [List.cons_append, List.append_assoc]
    rw [readString_cons_backslash (readEscape_unit_kept hdigits hleading htrailing _), ih]
    rfl
  | pair hhigh hleading hlow htrailing _ ih =>
    simp only [List.cons_append, List.append_assoc]
    rw [readString_cons_backslash (readEscape_pair hhigh hleading hlow htrailing _), ih]
    rfl

/-- A string that is passed over is read to its closing quote. -/
theorem exists_readString_skipped {body : List Char} (h : IsStringBody body)
    (more : List Char) : ∃ text, readString .skipped (body ++ '"' :: more) = .ok (text, more) := by
  induction h with
  | nil => exact ⟨[], by rw [List.nil_append, readString]⟩
  | @plain _ c hc _ ih =>
    obtain ⟨text, htext⟩ := ih
    obtain ⟨hquote, hbackslash, hcontrol⟩ := ne_of_isPlain hc
    refine ⟨c :: text, ?_⟩
    rw [List.cons_append, readString_cons hquote hbackslash hcontrol, htext]
    rfl
  | @letter _ _ meant hc _ ih =>
    obtain ⟨text, htext⟩ := ih
    refine ⟨meant :: text, ?_⟩
    simp only [List.cons_append]
    rw [readString_cons_backslash (readEscape_letter hc _), htext]
    rfl
  | @unit _ _ unit hdigits _ ih =>
    obtain ⟨text, htext⟩ := ih
    refine ⟨Char.ofNat unit :: text, ?_⟩
    simp only [List.cons_append, List.append_assoc]
    rw [readString_cons_backslash (readEscape_unit_skipped hdigits _), htext]
    rfl

/-! ### How values begin -/

/-- Whatever the grammar derives begins, after blanks, with no blank and no closing bracket. -/
theorem Derives.exists_eq_append {symbol : Symbol} {text : List Char} (h : Derives symbol text) :
    ∃ blanks c rest, text = blanks ++ c :: rest ∧ blanks.all isBlank = true ∧
      isBlank c = false ∧ c ≠ ']' ∧ c ≠ '\x7d' := by
  induction h with
  | word hword =>
    simp only [List.mem_cons, List.not_mem_nil, or_false] at hword
    rcases hword with rfl | rfl | rfl
    · exact ⟨[], 'n', _, rfl, rfl, by decide⟩
    · exact ⟨[], 't', _, rfl, rfl, by decide⟩
    · exact ⟨[], 'f', _, rfl, rfl, by decide⟩
  | numeral htext =>
    obtain ⟨c, rest, rfl, hc⟩ := htext.exists_eq_cons
    exact ⟨[], c, rest, rfl, rfl, isBlank_of_beginsNumeral hc,
      ne_of_beginsNumeral hc (by decide) (by decide),
      ne_of_beginsNumeral hc (by decide) (by decide)⟩
  | string => exact ⟨[], '"', _, rfl, rfl, by decide⟩
  | emptyArray => exact ⟨[], '[', _, rfl, rfl, by decide⟩
  | array => exact ⟨[], '[', _, rfl, rfl, by decide⟩
  | emptyObject => exact ⟨[], '\x7b', _, rfl, rfl, by decide⟩
  | object => exact ⟨[], '\x7b', _, rfl, rfl, by decide⟩
  | @element before _ after hbefore _ _ ih =>
    obtain ⟨blanks, c, rest, rfl, hblanks, hc⟩ := ih
    exact ⟨before ++ blanks, c, rest ++ after, by simp, by simp [hbefore, hblanks], hc⟩
  | lastElement _ ih => exact ih
  | @nextElement _ others _ _ ih _ =>
    obtain ⟨blanks, c, rest, rfl, hblanks, hc⟩ := ih
    exact ⟨blanks, c, rest ++ ',' :: others, by simp, hblanks, hc⟩
  | @member before body after text hbefore =>
    exact ⟨before, '"', _, rfl, hbefore, by decide⟩
  | lastMember _ ih => exact ih
  | @nextMember _ others _ _ ih _ =>
    obtain ⟨blanks, c, rest, rfl, hblanks, hc⟩ := ih
    exact ⟨blanks, c, rest ++ ',' :: others, by simp, hblanks, hc⟩

/-! ### Passing over values -/

/-- What passing over a text means. A value is read to its end, an element to the blanks after its
value, a member to the blanks after its element, and elements and members are read together with
the bracket that closes them. -/
def Skips : Symbol → List Char → Prop
  | .value, text => ∀ frames more, Ends more → ∃ value,
      readFrom .skipped ⟨frames, .value⟩ (text ++ more) =
        resume .skipped (settle value frames) more
  | .element, text => ∀ frames more, Ends more → ∃ value blanks, blanks.all isBlank = true ∧
      readFrom .skipped ⟨frames, .value⟩ (text ++ more) =
        resume .skipped (settle value frames) (blanks ++ more)
  | .elements, text => ∀ frames done more, ∃ value,
      readFrom .skipped ⟨.array done :: frames, .value⟩ (text ++ ']' :: more) =
        resume .skipped (settle value frames) more
  | .member, text => ∀ frames done more, Ends more → ∃ key value blanks,
      blanks.all isBlank = true ∧
      readMembers .skipped frames done (text ++ more) =
        readFrom .skipped ⟨frames, .more value (.object done key)⟩ (blanks ++ more)
  | .members, text => ∀ frames done more, ∃ value,
      readMembers .skipped frames done (text ++ '\x7d' :: more) =
        resume .skipped (settle value frames) more

variable {use : Use} {frames : List Frame}

theorem mayOpen_skipped (frames : List Frame) : mayOpen .skipped frames = true :=
  rfl

theorem readFrom_firstItem_of_derives {symbol : Symbol} {text : List Char}
    (h : Derives symbol text) (more : List Char) :
    readFrom use ⟨frames, .firstItem⟩ (text ++ more) =
      readFrom use ⟨.array [] :: frames, .value⟩ (text ++ more) := by
  obtain ⟨blanks, c, rest, rfl, hblanks, hc, hend, _⟩ := h.exists_eq_append
  rw [List.append_assoc, readFrom_blanks _ hblanks, readFrom_blanks _ hblanks, List.cons_append]
  exact readFrom_firstItem hc hend _

theorem readFrom_firstMember_of_derives {symbol : Symbol} {text : List Char}
    (h : Derives symbol text) (more : List Char) :
    readFrom use ⟨frames, .firstMember⟩ (text ++ more) =
      readMembers use frames [] (text ++ more) := by
  obtain ⟨blanks, c, rest, rfl, hblanks, hc, _, hend⟩ := h.exists_eq_append
  have hskip : skipBlanks (blanks ++ c :: rest ++ more) = c :: (rest ++ more) := by
    rw [List.append_assoc, skipBlanks_append hblanks]
    exact skipBlanks_cons hc _
  exact readFrom_firstMember hend hskip

theorem readColon_blanks {blanks : List Char} (h : blanks.all isBlank = true)
    (text : List Char) : readColon (blanks ++ ':' :: text) = .ok text := by
  rw [readColon, skipBlanks_append h, skipBlanks_cons (by decide)]
  rfl

theorem readMembers_of_readKey {before blanks text rest : List Char} {key : String}
    (done : List (String × Json)) (hbefore : before.all isBlank = true)
    (hkey : readKey use ('"' :: text) = .ok (key, blanks ++ ':' :: rest))
    (hblanks : blanks.all isBlank = true) :
    readMembers use frames done (before ++ '"' :: text) =
      readFrom use ⟨.object done key :: frames, .value⟩ rest := by
  have hbegin : beginMember use frames done ('"' :: text) =
      .ok (.ongoing ⟨.object done key :: frames, .value⟩, rest) := by
    simp only [beginMember, hkey, readColon_blanks hblanks]
    rfl
  rw [readMembers, skipBlanks_append hbefore, skipBlanks_cons (by decide), hbegin]
  rfl

theorem skips_word {text : List Char}
    (h : text ∈ [['n', 'u', 'l', 'l'], ['t', 'r', 'u', 'e'], ['f', 'a', 'l', 's', 'e']]) :
    Skips .value text := by
  intro frames more _
  simp only [List.mem_cons, List.not_mem_nil, or_false] at h
  rcases h with rfl | rfl | rfl
  · exact ⟨.null, readFrom_scalar (by decide) (by decide) (by decide) rfl⟩
  · exact ⟨.bool true, readFrom_scalar (by decide) (by decide) (by decide) rfl⟩
  · exact ⟨.bool false, readFrom_scalar (by decide) (by decide) (by decide) rfl⟩

theorem skips_numeral {text : List Char} (h : IsNumeral text) : Skips .value text := by
  intro frames more hmore
  obtain ⟨value, hread⟩ := exists_readScalar_numeral h hmore
  obtain ⟨c, rest, rfl, hc⟩ := h.exists_eq_cons
  exact ⟨value, readFrom_scalar (isBlank_of_beginsNumeral hc)
    (ne_of_beginsNumeral hc (by decide) (by decide))
    (ne_of_beginsNumeral hc (by decide) (by decide)) hread⟩

theorem skips_string {body : List Char} (h : IsStringBody body) :
    Skips .value ('"' :: (body ++ ['"'])) := by
  intro frames more _
  obtain ⟨text, htext⟩ := exists_readString_skipped h more
  have hread : readScalar .skipped ('"' :: (body ++ '"' :: more)) =
      .ok (.string (String.ofList text), more) := by
    rw [readScalar, htext]
    rfl
  refine ⟨.string (String.ofList text), ?_⟩
  rw [List.cons_append, List.append_assoc, List.singleton_append]
  exact readFrom_scalar (by decide) (by decide) (by decide) hread

theorem skips_emptyArray {blanks : List Char} (h : blanks.all isBlank = true) :
    Skips .value ('[' :: (blanks ++ [']'])) := by
  intro frames more _
  refine ⟨.array [], ?_⟩
  rw [List.cons_append, List.append_assoc, List.singleton_append, readFrom_openArray,
    if_pos (mayOpen_skipped frames), readFrom_blanks _ h, readFrom_emptyArray]

theorem Skips.array {text : List Char} (hitems : Derives .elements text)
    (h : Skips .elements text) : Skips .value ('[' :: (text ++ [']'])) := by
  intro frames more _
  obtain ⟨value, hread⟩ := h frames [] more
  refine ⟨value, ?_⟩
  rw [List.cons_append, List.append_assoc, List.singleton_append, readFrom_openArray,
    if_pos (mayOpen_skipped frames), readFrom_firstItem_of_derives hitems, hread]

theorem skips_emptyObject {blanks : List Char} (h : blanks.all isBlank = true) :
    Skips .value ('\x7b' :: (blanks ++ ['\x7d'])) := by
  intro frames more _
  refine ⟨.object [], ?_⟩
  rw [List.cons_append, List.append_assoc, List.singleton_append, readFrom_openObject,
    if_pos (mayOpen_skipped frames), readFrom_blanks _ h, readFrom_emptyObject]

theorem Skips.object {text : List Char} (hmembers : Derives .members text)
    (h : Skips .members text) : Skips .value ('\x7b' :: (text ++ ['\x7d'])) := by
  intro frames more _
  obtain ⟨value, hread⟩ := h frames [] more
  refine ⟨value, ?_⟩
  rw [List.cons_append, List.append_assoc, List.singleton_append, readFrom_openObject,
    if_pos (mayOpen_skipped frames), readFrom_firstMember_of_derives hmembers, hread]

theorem Skips.element {before text after : List Char} (hbefore : before.all isBlank = true)
    (h : Skips .value text) (hafter : after.all isBlank = true) :
    Skips .element (before ++ (text ++ after)) := by
  intro frames more hmore
  -- The blanks after the value end it as well as what follows them does.
  obtain ⟨value, hread⟩ := h frames (after ++ more) (hmore.append hafter)
  refine ⟨value, after, hafter, ?_⟩
  rw [List.append_assoc, List.append_assoc, readFrom_blanks _ hbefore, hread]

theorem Skips.lastElement {text : List Char} (h : Skips .element text) :
    Skips .elements text := by
  intro frames done more
  obtain ⟨value, blanks, hblanks, hread⟩ :=
    h (.array done :: frames) (']' :: more) (.cons (by simp) _)
  refine ⟨.array (value :: done).reverse, ?_⟩
  rw [hread, settle, resume, readFrom_lastItem value done hblanks]

theorem Skips.nextElement {text rest : List Char} (h : Skips .element text)
    (hrest : Skips .elements rest) : Skips .elements (text ++ ',' :: rest) := by
  intro frames done more
  -- The element is read with the frame of its array on the stack, and so are the others after it.
  obtain ⟨value, blanks, hblanks, hread⟩ :=
    h (.array done :: frames) (',' :: (rest ++ ']' :: more)) (.cons (by simp) _)
  obtain ⟨whole, hwhole⟩ := hrest frames (value :: done) more
  refine ⟨whole, ?_⟩
  rw [List.append_assoc, List.cons_append, hread, settle, resume, readFrom_blanks _ hblanks,
    readFrom_nextItem, hwhole]

theorem Skips.member {before body after text : List Char} (hbefore : before.all isBlank = true)
    (hbody : IsStringBody body) (hafter : after.all isBlank = true) (h : Skips .element text) :
    Skips .member (before ++ '"' :: (body ++ '"' :: (after ++ ':' :: text))) := by
  intro frames done more hmore
  obtain ⟨key, htext⟩ := exists_readString_skipped hbody (after ++ ':' :: (text ++ more))
  have hkey : readKey .skipped ('"' :: (body ++ '"' :: (after ++ ':' :: (text ++ more)))) =
      .ok (String.ofList key, after ++ ':' :: (text ++ more)) := by
    rw [readKey, htext]
    rfl
  obtain ⟨value, blanks, hblanks, hread⟩ :=
    h (.object done (String.ofList key) :: frames) more hmore
  refine ⟨String.ofList key, value, blanks, hblanks, ?_⟩
  simp only [List.append_assoc, List.cons_append]
  rw [readMembers_of_readKey done hbefore hkey hafter, hread, settle, resume]

theorem Skips.lastMember {text : List Char} (h : Skips .member text) : Skips .members text := by
  intro frames done more
  obtain ⟨key, value, blanks, hblanks, hread⟩ :=
    h frames done ('\x7d' :: more) (.cons (by simp) _)
  refine ⟨.object (Table.insert key value done), ?_⟩
  rw [hread, readFrom_lastMember value done key hblanks]

theorem Skips.nextMember {text rest : List Char} (h : Skips .member text)
    (hrest : Skips .members rest) : Skips .members (text ++ ',' :: rest) := by
  intro frames done more
  obtain ⟨key, value, blanks, hblanks, hread⟩ :=
    h frames done (',' :: (rest ++ '\x7d' :: more)) (.cons (by simp) _)
  obtain ⟨whole, hwhole⟩ := hrest frames (Table.insert key value done) more
  refine ⟨whole, ?_⟩
  rw [List.append_assoc, List.cons_append, hread, readFrom_blanks _ hblanks,
    readFrom_nextMember, hwhole]

/-- Whatever the grammar derives is passed over. -/
theorem Derives.skips {symbol : Symbol} {text : List Char} (h : Derives symbol text) :
    Skips symbol text := by
  induction h with
  | word hword => exact skips_word hword
  | numeral htext => exact skips_numeral htext
  | string hbody => exact skips_string hbody
  | emptyArray hblanks => exact skips_emptyArray hblanks
  | array hitems ih => exact ih.array hitems
  | emptyObject hblanks => exact skips_emptyObject hblanks
  | object hmembers ih => exact ih.object hmembers
  | element hbefore _ hafter ih => exact ih.element hbefore hafter
  | lastElement _ ih => exact ih.lastElement
  | nextElement _ _ ih ihrest => exact ih.nextElement ihrest
  | member hbefore hbody hafter _ ih => exact ih.member hbefore hbody hafter
  | lastMember _ ih => exact ih.lastMember
  | nextMember _ _ ih ihrest => exact ih.nextMember ihrest

/-- A value that is passed over is read to its end, whatever blanks are before it. -/
theorem exists_read_skipped {blanks text more : List Char} (hblanks : blanks.all isBlank = true)
    (h : Derives .value text) (hmore : Ends more) :
    ∃ value, read .skipped (blanks ++ (text ++ more)) = .ok (value, more) := by
  obtain ⟨value, hread⟩ := h.skips [] more hmore
  refine ⟨value, ?_⟩
  rw [read, readFrom_blanks _ hblanks, hread]
  rfl

/-! ### Objects that are written -/

theorem Spells.escape_append {text body : List Char} (c : Char) (h : Spells text body) :
    Spells (c :: text) (escape c ++ body) := by
  unfold escape
  split_ifs with hquote hbackslash hbackspace hfeed hnewline hreturn htab hcontrol
  iterate 7
    · subst c
      exact .letter rfl h
  · have hhex : ∀ unit < 0x20, IsHex
        ['0', '0', Nat.digitChar (unit / 16), Nat.digitChar (unit % 16)] unit ∧
        isLeading unit = false ∧ isTrailing unit = false := by decide
    obtain ⟨hdigits, hleading, htrailing⟩ := hhex _ hcontrol
    have hunit := Spells.unit hdigits hleading htrailing h
    rwa [Char.ofNat_toNat] at hunit
  · refine .plain ?_ h
    simp [isPlain, hquote, hbackslash, Nat.le_of_not_lt hcontrol]

theorem spells_flatMap_escape (text : List Char) : Spells text (text.flatMap escape) := by
  induction text with
  | nil => exact .nil
  | cons c rest ih => exact ih.escape_append c

theorem isMember_written (layout : Layout) (level : Nat) (key : String) {value after : List Char}
    (hvalue : Derives .value value) (hafter : after.all isBlank = true) :
    IsMember key value
      (layout.lineBreak level ++ (stringChars key ++ (layout.colon ++ (value ++ after)))) := by
  have hbefore := all_isBlank_lineBreak layout level
  have hbody := spells_flatMap_escape key.toList
  have hnone : ([] : List Char).all isBlank = true := rfl
  have hone : [' '].all isBlank = true := rfl
  simp only [stringChars, List.cons_append, List.append_assoc]
  cases layout with
  | compact => exact .intro hbefore hbody hnone hnone hvalue hafter
  | indented => exact .intro hbefore hbody hnone hone hvalue hafter

/-- What is written for members is their text, with blanks after the last one or not. -/
theorem isMembers_written (layout : Layout) (level : Nat) {blanks : List Char}
    (hblanks : blanks.all isBlank = true) {members : Table Json} (hne : members ≠ [])
    (h : ∀ member ∈ members, Derives .value (member.2.chars layout level)) :
    IsMembers (members.map fun member => (member.1, member.2.chars layout level))
      (memberChars layout level members ++ blanks) := by
  induction members with
  | nil => exact absurd rfl hne
  | cons member rest ih =>
    obtain ⟨key, value⟩ := member
    have hvalue := h _ List.mem_cons_self
    cases rest with
    | nil =>
      have hmember := isMember_written layout level key hvalue hblanks
      exact .last (by simpa [memberChars, comma] using hmember)
    | cons next others =>
      have hnone : ([] : List Char).all isBlank = true := rfl
      have hmember := isMember_written layout level key hvalue hnone
      have hothers := ih (List.cons_ne_nil _ _) fun other hmem => h _ (List.mem_cons_of_mem _ hmem)
      have hmembers := IsMembers.next hmember hothers
      rw [List.append_nil] at hmembers
      rw [memberChars, comma_cons]
      simpa using hmembers

theorem isObjectText_written (layout : Layout) {members : Table Json} (hne : members ≠ [])
    (h : ∀ member ∈ members, Derives .value (member.2.chars layout 1)) :
    IsObjectText (members.map fun member => (member.1, member.2.chars layout 1))
      ((Json.object members).chars layout 0) := by
  have hnone : ([] : List Char).all isBlank = true := rfl
  have hmembers := isMembers_written layout 1 (all_isBlank_lineBreak layout 0) hne h
  have hobject := IsObjectText.object hnone hmembers hnone
  obtain ⟨member, rest, rfl⟩ := List.exists_cons_of_ne_nil hne
  rw [chars]
  simpa using hobject

end StyleTree.Json
