import StyleTree.Proofs.Json.Derivations
import StyleTree.Settings.Json

/-!
# Settings come back from objects in any arrangement

An object sets the fields whose keys it has, wherever their members are and however the keys and
the space around them are written.
-/

namespace StyleTree.Settings

open Json

/-! ### Fields -/

namespace Field

theorem ofKey?_key (field : Field) : ofKey? field.key = some field := by
  cases field <;> decide

theorem key_of_ofKey? {key : String} {field : Field} (h : ofKey? key = some field) :
    key = field.key := by
  have hkey := List.find?_some h
  exact (beq_iff_eq.1 hkey).symm

theorem key_inj {field other : Field} : field.key = other.key ↔ field = other := by
  refine ⟨fun h => ?_, congrArg key⟩
  have hsame := ofKey?_key field
  rw [h, ofKey?_key] at hsame
  exact (Option.some.inj hsame).symm

/-- The text of the value that a field has. -/
def text (settings : Settings) (field : Field) : List Char :=
  (field.get settings).chars .compact 0

/-- Whether a text is the one of a value that a field can have: a word for true or false, or the
digits of a number that 64 bits hold. -/
def Takes (field : Field) (text : List Char) : Prop :=
  ∃ settings : Settings, field.text settings = text

/-- Settings are the same if all of their fields are. -/
theorem eq_of_get {settings other : Settings}
    (h : ∀ field : Field, field.get settings = field.get other) : settings = other := by
  have hordered := Json.bool.inj (h .ordered)
  have hcomments := Json.bool.inj (h .comments)
  have hstrip := Json.bool.inj (h .stripComments)
  have hsplit := Json.bool.inj (h .split)
  have hdepth := congrArg Numeral.toNat? (Json.number.inj (h .maxDepth))
  rw [Numeral.toNat?_ofNat, Numeral.toNat?_ofNat] at hdepth
  have hmax : settings.maxDepth = other.maxDepth := UInt64.toNat_inj.1 (Option.some.inj hdepth)
  cases settings
  cases other
  simp_all

/-- A value of a field is true, false or a number that 64 bits hold. -/
theorem exists_get_eq (settings : Settings) (field : Field) :
    (∃ flag, field.get settings = .bool flag) ∨
      ∃ n < Nat.pow 2 64, field.get settings = .number (.ofNat n) := by
  cases field with
  | maxDepth => exact .inr ⟨settings.maxDepth.toNat, settings.maxDepth.toNat_lt, rfl⟩
  | ordered | comments | stripComments | split => exact .inl ⟨_, rfl⟩

theorem chars_ofNat (layout : Layout) (level n : Nat) :
    (Json.number (.ofNat n)).chars layout level = Nat.toDigits 10 n := by
  simp [chars, Numeral.chars, Numeral.ofNat]

theorem text_eq_toDigits {settings : Settings} {field : Field} {n : Nat}
    (h : field.get settings = .number (.ofNat n)) : field.text settings = Nat.toDigits 10 n := by
  rw [text, h, chars_ofNat]

theorem readScalar_text (settings : Settings) (field : Field) {more : List Char}
    (hmore : Ends more) :
    readScalar .kept (field.text settings ++ more) = .ok (field.get settings, more) := by
  rcases field.exists_get_eq settings with ⟨flag, hget⟩ | ⟨n, hn, hget⟩
  · rw [text, hget]
    cases flag <;> rfl
  · rw [text_eq_toDigits hget, hget, readScalar_toDigits _ hn hmore]

theorem get_eq_of_text_eq {settings other : Settings} {field : Field}
    (h : field.text settings = field.text other) : field.get settings = field.get other := by
  have hends : Ends [] := by simp [Ends]
  have hread := field.readScalar_text settings hends
  rw [h, field.readScalar_text other hends] at hread
  exact (Prod.mk.inj (Except.ok.inj hread)).1.symm

theorem exists_text_eq_cons (settings : Settings) (field : Field) :
    ∃ c rest, field.text settings = c :: rest ∧ isBlank c = false ∧ c ≠ '[' ∧ c ≠ '\x7b' := by
  rcases field.exists_get_eq settings with ⟨flag, hget⟩ | ⟨n, hn, hget⟩
  · rw [text, hget]
    cases flag
    · exact ⟨'f', _, rfl, by decide⟩
    · exact ⟨'t', _, rfl, by decide⟩
  · obtain ⟨c, rest, hdigits, hc, _⟩ := (isWhole_toDigits n).1.exists_eq_cons
    refine ⟨c, rest, (text_eq_toDigits hget).trans hdigits, isBlank_of_beginsNumeral (.inr hc), ?_⟩
    exact ⟨ne_of_beginsNumeral (.inr hc) (by decide) (by decide),
      ne_of_beginsNumeral (.inr hc) (by decide) (by decide)⟩

theorem derives_text (settings : Settings) (field : Field) :
    Derives .value (field.text settings) := by
  rcases field.exists_get_eq settings with ⟨flag, hget⟩ | ⟨n, hn, hget⟩
  · rw [text, hget]
    cases flag <;> exact .word (by decide)
  · have hnumeral := IsNumeral.intro (.inl rfl) (isWhole_toDigits n) .none .none
    simp only [List.nil_append, List.append_nil] at hnumeral
    rw [text_eq_toDigits hget]
    exact .numeral hnumeral

/-- A field can be set to any value that it can have, and the other fields stay. -/
theorem exists_set?_eq (settings given : Settings) (field : Field) :
    ∃ changed, field.set? settings (field.get given) = some changed ∧
      field.get changed = field.get given ∧
      ∀ other : Field, other ≠ field → other.get changed = other.get settings := by
  cases field with
  | maxDepth =>
    have hlt : given.maxDepth.toNat < UInt64.size := given.maxDepth.toNat_lt
    refine ⟨{ settings with maxDepth := given.maxDepth }, ?_, rfl, fun other h => ?_⟩
    · simp [set?, get, Numeral.toNat?_ofNat, hlt]
    · cases other <;> first | rfl | exact absurd rfl h
  | ordered | comments | stripComments | split =>
    refine ⟨_, rfl, rfl, fun other h => ?_⟩
    cases other <;> first | rfl | exact absurd rfl h

end Field

/-- A field is set to a value at the start of a text, whatever blanks are before it. -/
theorem exists_readField (settings given : Settings) (field : Field) {blanks more : List Char}
    (hblanks : blanks.all isBlank = true) (hmore : Ends more) :
    ∃ changed, readField settings field (blanks ++ (field.text given ++ more)) =
        .ok (changed, more) ∧
      field.get changed = field.get given ∧
      ∀ other : Field, other ≠ field → other.get changed = other.get settings := by
  obtain ⟨changed, hset, hchanged⟩ := field.exists_set?_eq settings given
  refine ⟨changed, ?_, hchanged⟩
  have hscalar := field.readScalar_text given hmore
  obtain ⟨c, rest, htext, hblank, harray, hobject⟩ := field.exists_text_eq_cons given
  rw [htext, List.cons_append] at hscalar ⊢
  rw [readField, skipBlanks_append hblanks, skipBlanks_cons hblank]
  split
  · simp_all
  · simp_all
  · rw [hscalar]
    simp only [hset]

/-! ### Members -/

/-- Whether members give each field at most once, and a value that it can have. -/
structure IsProper (members : Table (List Char)) : Prop where
  once : ∀ field : Field, members.keys.count field.key ≤ 1
  takes : ∀ (field : Field) (text : List Char), (field.key, text) ∈ members → field.Takes text

/-- Whether settings are as members say: a field that is given has the value that is given, and
any other field has its usual value. -/
structure Describes (members : Table (List Char)) (settings : Settings) : Prop where
  given : ∀ (field : Field) (text : List Char),
    (field.key, text) ∈ members → field.text settings = text
  missing : ∀ field : Field, field.key ∉ members.keys → field.get settings = field.get {}

/-- What a draft knows of the members that were read. -/
structure Draft.Holds (members : Table (List Char)) (draft : Draft) : Prop where
  seen : ∀ field : Field, field ∈ draft.seen ↔ field.key ∈ members.keys
  describes : Describes members draft.settings

variable {front members : Table (List Char)} {key : String} {value text more : List Char}

theorem keys_concat : Table.keys (front ++ [(key, value)]) = front.keys ++ [key] := by
  simp [Table.keys]

theorem IsProper.of_append (h : IsProper (front ++ members)) : IsProper front where
  once field := by
    have hcount := h.once field
    rw [Table.keys, List.map_append, List.count_append] at hcount
    exact Nat.le_trans (Nat.le_add_right _ _) hcount
  takes field text hmem := h.takes field text (List.mem_append_left _ hmem)

theorem IsProper.takes_last {field : Field} (h : IsProper (front ++ [(field.key, value)])) :
    field.Takes value :=
  h.takes field value (List.mem_append_right _ List.mem_cons_self)

/-- A field is not given before if it is given once. -/
theorem IsProper.not_mem_keys {field : Field} (h : IsProper (front ++ [(field.key, value)])) :
    field.key ∉ front.keys := by
  intro hmem
  have hcount := h.once field
  have hpositive := List.count_pos_iff.2 hmem
  rw [keys_concat, List.count_append, List.count_singleton_self] at hcount
  omega

theorem describes_nil : Describes [] {} :=
  ⟨fun _ _ h => absurd h (List.not_mem_nil), fun _ _ => rfl⟩

/-- A member under a key that is no field changes nothing. -/
theorem Describes.concat_other {settings : Settings} (h : Describes front settings)
    (hkey : ∀ field : Field, field.key ≠ key) :
    Describes (front ++ [(key, value)]) settings where
  given field text hmem := by
    rcases List.mem_append.1 hmem with hfront | hlast
    · exact h.given field text hfront
    · obtain ⟨hsame, _⟩ := Prod.mk.inj (List.mem_singleton.1 hlast)
      exact absurd hsame (hkey field)
  missing field hnot := by
    rw [keys_concat] at hnot
    exact h.missing field fun hmem => hnot (List.mem_append_left _ hmem)

/-- A member that gives a field for the first time sets it and no other one. -/
theorem Describes.concat_field {settings given changed : Settings} {field : Field}
    (h : Describes front settings) (hnew : field.key ∉ front.keys)
    (hchanged : field.get changed = field.get given)
    (hother : ∀ other : Field, other ≠ field → other.get changed = other.get settings) :
    Describes (front ++ [(field.key, field.text given)]) changed where
  given other text hmem := by
    rcases List.mem_append.1 hmem with hfront | hlast
    · have hne : other ≠ field := by
        rintro rfl
        exact hnew (List.mem_map.2 ⟨_, hfront, rfl⟩)
      rw [Field.text, hother other hne]
      exact h.given other text hfront
    · obtain ⟨hkey, rfl⟩ := Prod.mk.inj (List.mem_singleton.1 hlast)
      rw [Field.key_inj.1 hkey, Field.text, hchanged, Field.text]
  missing other hnot := by
    rw [keys_concat, List.mem_append, List.mem_singleton, not_or] at hnot
    rw [hother other fun hsame => hnot.2 (congrArg Field.key hsame)]
    exact h.missing other hnot.1

/-- Members that describe settings are proper if they give no field twice. -/
theorem Describes.isProper {settings : Settings} (h : Describes members settings)
    (honce : ∀ field : Field, members.keys.count field.key ≤ 1) : IsProper members where
  once := honce
  takes field text hmem := ⟨settings, h.given field text hmem⟩

/-- Members leave no choice of settings. -/
theorem Describes.unique {settings other : Settings} (h : Describes members settings)
    (hother : Describes members other) : settings = other := by
  refine Field.eq_of_get fun field => ?_
  by_cases hkey : field.key ∈ members.keys
  · obtain ⟨⟨key, text⟩, hmem, rfl⟩ := List.mem_map.1 hkey
    have htext := (h.given field text hmem).trans (hother.given field text hmem).symm
    exact Field.get_eq_of_text_eq htext
  · rw [h.missing field hkey, hother.missing field hkey]

/-! ### One more member -/

/-- The key of a member is read however it is spelled, and its value follows the colon. -/
theorem exists_readKey (h : IsMember key value text) (more : List Char) :
    ∃ colon space after, colon.all isBlank = true ∧ space.all isBlank = true ∧
      after.all isBlank = true ∧
      readKey .kept (skipBlanks (text ++ more)) =
        .ok (key, colon ++ ':' :: (space ++ (value ++ (after ++ more)))) := by
  obtain @⟨before, body, colon, space, after, hbefore, hbody, hcolon, hspace, _, hafter⟩ := h
  refine ⟨colon, space, after, hcolon, hspace, hafter, ?_⟩
  simp only [List.append_assoc, List.cons_append]
  rw [skipBlanks_append hbefore, skipBlanks_cons (by decide), readKey, readString_of_spells hbody]
  simp [Except.map]

theorem readMember_repeated {draft : Draft} {field : Field} (h : IsMember field.key value text)
    (hseen : field ∈ draft.seen) (more : List Char) :
    readMember draft (skipBlanks (text ++ more)) = .error .unsuitable := by
  obtain ⟨_, _, _, _, _, _, hkey⟩ := exists_readKey h more
  simp only [readMember, hkey, Field.ofKey?_key, if_pos hseen]

/-- After one more member, a draft knows of one more member. -/
theorem Draft.Holds.exists_readMember {draft : Draft} (hdraft : draft.Holds front)
    (h : IsMember key value text) (hproper : IsProper (front ++ [(key, value)]))
    (hmore : Ends more) :
    ∃ next blanks, blanks.all isBlank = true ∧
      readMember draft (skipBlanks (text ++ more)) = .ok (next, blanks ++ more) ∧
      next.Holds (front ++ [(key, value)]) := by
  obtain ⟨colon, space, after, hcolon, hspace, hafter, hkey⟩ := exists_readKey h more
  have hends := hmore.append hafter
  cases hfield : Field.ofKey? key with
  | none =>
    -- The key is no field, and the value is passed over, whatever it is.
    have hother : ∀ field : Field, field.key ≠ key := by
      rintro field rfl
      simp [Field.ofKey?_key] at hfield
    obtain ⟨passed, hread⟩ := exists_read_skipped hspace h.derives hends
    refine ⟨draft, after, hafter, ?_, ?_, hdraft.describes.concat_other hother⟩
    · simp only [readMember, hkey, hfield, readColon_blanks hcolon, hread, Except.map]
    · intro field
      rw [hdraft.seen field, keys_concat, List.mem_append, List.mem_singleton,
        or_iff_left (hother field)]
  | some field =>
    obtain rfl := Field.key_of_ofKey? hfield
    -- The key is a field that was not given before.
    have hnew := hproper.not_mem_keys
    obtain ⟨given, rfl⟩ := hproper.takes_last
    obtain ⟨changed, hread, hchanged, hother⟩ :=
      exists_readField draft.settings given field hspace hends
    refine ⟨⟨changed, field :: draft.seen⟩, after, hafter, ?_, ?_,
      hdraft.describes.concat_field hnew hchanged hother⟩
    · have hseen : field ∉ draft.seen := fun hmem => hnew ((hdraft.seen field).1 hmem)
      simp only [readMember, hkey, hfield, if_neg hseen, readColon_blanks hcolon, hread,
        Except.map]
    · intro other
      rw [List.mem_cons, hdraft.seen other, keys_concat, List.mem_append, List.mem_singleton,
        Field.key_inj, or_comm]

/-! ### All members -/

theorem readMembers_error {draft : Draft} {fault : Fault}
    (hmember : readMember draft text = .error fault) : readMembers draft text = .error fault := by
  rw [readMembers]
  split <;> simp_all

theorem readMembers_last {draft next : Draft} {blanks : List Char}
    (hmember : readMember draft text = .ok (next, blanks ++ '\x7d' :: more))
    (hblanks : blanks.all isBlank = true) :
    readMembers draft text = .ok (next.settings, more) := by
  have hskip : skipBlanks (blanks ++ '\x7d' :: more) = '\x7d' :: more := by
    rw [skipBlanks_append hblanks, skipBlanks_cons (by decide)]
  rw [readMembers]
  split
  · simp_all
  · rename_i hread
    obtain ⟨rfl, rfl⟩ := Prod.mk.inj (Except.ok.inj (hmember.symm.trans hread))
    split <;> simp_all

theorem readMembers_next {draft next : Draft} {blanks : List Char}
    (hmember : readMember draft text = .ok (next, blanks ++ ',' :: more))
    (hblanks : blanks.all isBlank = true) :
    readMembers draft text = readMembers next (skipBlanks more) := by
  have hskip : skipBlanks (blanks ++ ',' :: more) = ',' :: more := by
    rw [skipBlanks_append hblanks, skipBlanks_cons (by decide)]
  rw [readMembers]
  split
  · simp_all
  · rename_i hread
    obtain ⟨rfl, rfl⟩ := Prod.mk.inj (Except.ok.inj (hmember.symm.trans hread))
    split <;> simp_all

/-- Members are read to the end of their object, by induction on them. The draft knows of those
before, and in the end of all. -/
theorem exists_readMembers (h : IsMembers members text) :
    ∀ {front : Table (List Char)} {draft : Draft} (more : List Char), draft.Holds front →
      IsProper (front ++ members) →
      ∃ settings, readMembers draft (skipBlanks (text ++ '\x7d' :: more)) = .ok (settings, more) ∧
        Describes (front ++ members) settings := by
  induction h with
  | last htext =>
    intro front draft more hdraft hproper
    have hends : Ends ('\x7d' :: more) := .cons (by simp) more
    obtain ⟨next, blanks, hblanks, hread, hnext⟩ := hdraft.exists_readMember htext hproper hends
    exact ⟨next.settings, readMembers_last hread hblanks, hnext.describes⟩
  | @next key value text rest members htext _ ih =>
    intro front draft more hdraft hproper
    have hends : Ends (',' :: (rest ++ '\x7d' :: more)) := .cons (by simp) _
    rw [List.append_cons front] at hproper ⊢
    obtain ⟨next, blanks, hblanks, hread, hnext⟩ :=
      hdraft.exists_readMember htext hproper.of_append hends
    obtain ⟨settings, hrest, hdescribes⟩ := ih more hnext hproper
    refine ⟨settings, ?_, hdescribes⟩
    rw [List.append_assoc, List.cons_append, readMembers_next hread hblanks, hrest]

/-- Members are read up to a key that is repeated, by induction on those before it. -/
theorem readMembers_repeated {field : Field} {back : Table (List Char)} :
    ∀ {mid front : Table (List Char)} {text : List Char} {draft : Draft} (more : List Char),
      IsMembers (mid ++ (field.key, value) :: back) text → draft.Holds front →
      IsProper (front ++ mid) → field.key ∈ Table.keys (front ++ mid) →
      readMembers draft (skipBlanks (text ++ '\x7d' :: more)) = .error .unsuitable := by
  intro mid
  induction mid with
  | nil =>
    intro front text draft more h hdraft _ hmem
    rw [List.append_nil] at hmem
    -- The repeated member is next, and it is refused whether others follow or not.
    have hseen := (hdraft.seen field).2 hmem
    cases h with
    | last htext => exact readMembers_error (readMember_repeated htext hseen _)
    | next htext =>
      rw [List.append_assoc]
      exact readMembers_error (readMember_repeated htext hseen _)
  | cons first mid ih =>
    intro front text draft more h hdraft hproper hmem
    rw [List.append_cons front] at hproper hmem
    generalize hsplit : first :: mid ++ (field.key, value) :: back = members at h
    cases h with
    | last => simp at hsplit
    | @next key value text rest members htext hrest =>
      obtain ⟨rfl, rfl⟩ := List.cons.inj hsplit
      have hends : Ends (',' :: (rest ++ '\x7d' :: more)) := .cons (by simp) _
      obtain ⟨next, blanks, hblanks, hread, hnext⟩ :=
        hdraft.exists_readMember htext hproper.of_append hends
      rw [List.append_assoc, List.cons_append, readMembers_next hread hblanks]
      exact ih more hrest hnext hproper hmem

/-! ### Whole objects -/

theorem exists_eq_of_isMembers (h : IsMembers members text) :
    ∃ blanks rest, text = blanks ++ '"' :: rest ∧ blanks.all isBlank = true := by
  cases h with
  | last htext =>
    obtain ⟨hbefore, _⟩ := htext
    exact ⟨_, _, rfl, hbefore⟩
  | next htext =>
    obtain ⟨hbefore, _⟩ := htext
    exact ⟨_, _, by rw [List.append_assoc, List.cons_append], hbefore⟩

theorem read_empty {before blanks after : List Char} (hbefore : before.all isBlank = true)
    (hblanks : blanks.all isBlank = true) :
    read (before ++ '\x7b' :: (blanks ++ '\x7d' :: after)) = .ok ({}, after) := by
  have hskip : skipBlanks (blanks ++ '\x7d' :: after) = '\x7d' :: after := by
    rw [skipBlanks_append hblanks, skipBlanks_cons (by decide)]
  rw [read, skipBlanks_append hbefore, skipBlanks_cons (by decide)]
  simp only [hskip]

theorem read_object {before after : List Char} (hbefore : before.all isBlank = true)
    (h : IsMembers members text) :
    read (before ++ '\x7b' :: (text ++ '\x7d' :: after)) =
      readMembers {} (skipBlanks (text ++ '\x7d' :: after)) := by
  obtain ⟨blanks, rest, rfl, hblanks⟩ := exists_eq_of_isMembers h
  have hskip : skipBlanks (blanks ++ '"' :: rest ++ '\x7d' :: after) =
      '"' :: (rest ++ '\x7d' :: after) := by
    rw [List.append_assoc, skipBlanks_append hblanks]
    exact skipBlanks_cons (by decide) _
  rw [read, skipBlanks_append hbefore, skipBlanks_cons (by decide)]
  simp only [hskip]
  rfl

theorem holds_default : Draft.Holds [] {} :=
  ⟨fun _ => by simp [Table.keys], describes_nil⟩

/-- An object with proper members is read as the settings that they describe. -/
theorem exists_ofJsonText {source : String} (h : IsObjectText members source.toList)
    (hproper : IsProper members) :
    ∃ settings, ofJsonText source = .ok settings ∧ Describes members settings := by
  rw [ofJsonText]
  generalize source.toList = text at h
  cases h with
  | empty hbefore hblanks hafter =>
    refine ⟨{}, ?_, describes_nil⟩
    simp only [read_empty hbefore hblanks, whole, hafter, if_true]
  | @object _ _ after _ hbefore hmembers hafter =>
    obtain ⟨settings, hread, hdescribes⟩ := exists_readMembers hmembers after holds_default hproper
    refine ⟨settings, ?_, hdescribes⟩
    simp only [read_object hbefore hmembers, hread, whole, hafter, if_true]

/-- An object is refused for the first key of a field that it repeats. -/
theorem ofJsonText_repeated {source : String} {field : Field} {back : Table (List Char)}
    (h : IsObjectText (front ++ (field.key, value) :: back) source.toList)
    (hproper : IsProper front) (hmem : field.key ∈ front.keys) :
    ofJsonText source = .error (.json .unsuitable) := by
  rw [ofJsonText]
  generalize source.toList = text at h
  generalize hmembers : front ++ (field.key, value) :: back = members at h
  cases h with
  | empty => simp at hmembers
  | @object _ _ after _ hbefore htext =>
    subst hmembers
    have hread := readMembers_repeated after htext holds_default hproper hmem
    simp only [read_object hbefore htext, hread, whole]

/-! ### Texts of settings -/

/-- The members that settings are written with. -/
def texts (settings : Settings) : Table (List Char) :=
  Field.all.map fun field => (field.key, field.text settings)

theorem mem_texts_iff {settings : Settings} {field : Field} :
    (field.key, text) ∈ settings.texts ↔ field.text settings = text := by
  simp only [texts, List.mem_map, Prod.mk.injEq, Field.key_inj]
  refine ⟨fun ⟨_, _, hsame, htext⟩ => hsame ▸ htext, fun h => ⟨field, ?_, rfl, h⟩⟩
  cases field <;> decide

theorem keys_texts (settings : Settings) : settings.texts.keys = Field.all.map Field.key := by
  rw [texts, Table.keys, List.map_map]
  rfl

theorem describes_texts (settings : Settings) : Describes settings.texts settings where
  given _ _ hmem := mem_texts_iff.1 hmem
  missing field hnot := by
    refine absurd ?_ hnot
    rw [keys_texts]
    cases field <;> decide

theorem isProper_texts (settings : Settings) : IsProper settings.texts := by
  refine settings.describes_texts.isProper fun field => ?_
  rw [keys_texts]
  cases field <;> decide

/-- The text of a value of a field is the same in all layouts. -/
theorem Field.chars_get (layout : Layout) (level : Nat) (settings : Settings) (field : Field) :
    (field.get settings).chars layout level = field.text settings := by
  rw [text]
  rcases field.exists_get_eq settings with ⟨flag, hget⟩ | ⟨n, _, hget⟩
  · rw [hget]
    cases flag <;> rfl
  · rw [hget, chars_ofNat, chars_ofNat]

theorem isObjectText_print (settings : Settings) (layout : Layout) :
    IsObjectText settings.texts (settings.toJson.print layout).toList := by
  have hderives : ∀ member ∈ Field.all.map fun field => (field.key, field.get settings),
      Derives .value (member.2.chars layout 1) := by
    intro member hmem
    obtain ⟨field, _, rfl⟩ := List.mem_map.1 hmem
    rw [field.chars_get]
    exact field.derives_text settings
  have htexts : (Field.all.map fun field => (field.key, field.get settings)).map
      (fun member => (member.1, member.2.chars layout 1)) = settings.texts := by
    rw [List.map_map, texts]
    exact List.map_congr_left fun field _ =>
      congrArg (Prod.mk field.key) (field.chars_get layout 1 settings)
  have hobject := isObjectText_written layout (by simp [Field.all]) hderives
  rw [htexts] at hobject
  rw [Json.print, String.toList_ofList, toJson]
  exact hobject

/-! ### Objects with a list in them -/

/-- The text of a list that would not be kept: its number is too large, and its string is half of a
character. -/
def unkept : List Char :=
  "[1e999,\"\\ud800\"]".toList

theorem derives_unkept : Derives .value unkept := by
  have hnone : ([] : List Char).all isBlank = true := rfl
  have hnumber : Derives .value "1e999".toList := by
    have hwhole : IsWhole ['1'] := by decide
    have hdigits : IsDigits ['9', '9', '9'] := by decide
    exact .numeral (.intro (.inl rfl) hwhole .none (.some (.inl rfl) (.inl rfl) hdigits))
  have hhalf : Derives .value "\"\\ud800\"".toList := by
    have hhex : IsHex "d800".toList 0xD800 := by decide
    exact .string (.unit hhex .nil)
  exact .array
    (.nextElement (.element hnone hnumber hnone) (.lastElement (.element hnone hhalf hnone)))

/-- Settings with the largest number that 64 bits hold. -/
def widest : Settings :=
  { split := true, maxDepth := 18446744073709551615 }

/-- Members that give these settings after the list. -/
def afterList : Table (List Char) :=
  [("z", unkept), ("maxDepth", Field.maxDepth.text widest), ("split", Field.split.text widest)]

/-- A member that gives a field before the list. -/
def beforeList : Table (List Char) :=
  [("split", Field.split.text widest), ("z", unkept)]

theorem Field.key_ne_z (field : Field) : field.key ≠ "z" := by
  cases field <;> decide

theorem describes_afterList : Describes afterList widest where
  given field text hmem := by
    simp only [afterList, List.mem_cons, Prod.mk.injEq, List.not_mem_nil, or_false] at hmem
    rcases hmem with ⟨hkey, -⟩ | ⟨hkey, rfl⟩ | ⟨hkey, rfl⟩
    · exact absurd hkey field.key_ne_z
    · obtain rfl : field = .maxDepth := Field.key_inj.1 hkey
      rfl
    · obtain rfl : field = .split := Field.key_inj.1 hkey
      rfl
  missing field hnot := by
    cases field with
    | ordered | comments | stripComments => rfl
    | split | maxDepth => exact absurd (by decide) hnot

theorem isProper_afterList : IsProper afterList :=
  describes_afterList.isProper fun field => by cases field <;> decide

theorem isProper_beforeList : IsProper beforeList := by
  have hsplit : Describes [("split", Field.split.text widest)] { split := true } := by
    refine describes_nil.concat_field (show Field.split.key ∉ _ by decide) rfl fun other hne => ?_
    cases other with
    | split => exact absurd rfl hne
    | ordered | comments | stripComments | maxDepth => rfl
  have hlist : Describes beforeList { split := true } := hsplit.concat_other Field.key_ne_z
  exact hlist.isProper fun field => by cases field <;> decide

/-- An escape in a key spells the field all the same. -/
theorem isObjectText_afterList : IsObjectText afterList <| String.toList
  "\x7b\"z\":[1e999,\"\\ud800\"],\"maxDepth\":18446744073709551615,\"\\u0073plit\": true\x7d" := by
  have hnone : ([] : List Char).all isBlank = true := rfl
  have hone : [' '].all isBlank = true := rfl
  have hsplit : Spells "split".toList "\\u0073plit".toList := by
    have hhex : IsHex "0073".toList 0x73 := by decide
    exact .unit hhex rfl rfl (spells_flatMap_escape "plit".toList)
  have hlist := IsMember.intro hnone (spells_flatMap_escape "z".toList) hnone hnone
    derives_unkept hnone
  have hdepth := IsMember.intro hnone (spells_flatMap_escape "maxDepth".toList) hnone hnone
    (Field.maxDepth.derives_text widest) hnone
  have hflag := IsMember.intro hnone hsplit hnone hone (Field.split.derives_text widest) hnone
  exact .object hnone (.next hlist (.next hdepth (.last hflag))) hnone

theorem isObjectText_repeated : IsObjectText (beforeList ++ [("split", "null".toList)]) <|
    String.toList "\x7b\"split\":true,\"z\":[1e999,\"\\ud800\"],\"split\":null\x7d" := by
  have hnone : ([] : List Char).all isBlank = true := rfl
  have hsplit := spells_flatMap_escape "split".toList
  have hflag := IsMember.intro hnone hsplit hnone hnone (Field.split.derives_text widest) hnone
  have hlist := IsMember.intro hnone (spells_flatMap_escape "z".toList) hnone hnone
    derives_unkept hnone
  have hnull : Derives .value "null".toList := .word (by decide)
  have hagain := IsMember.intro hnone hsplit hnone hnone hnull hnone
  exact .object hnone (.next hflag (.next hlist (.last hagain))) hnone

/-! ### Settings and their texts -/

/-- Settings come back from their text in either layout. The text of any object with proper members
describes the settings that are read from it: its members are in any order, with others among
them. With a field that is given again, it is refused as unsuitable, whatever comes after. -/
theorem ofJsonText_arranged :
    (∀ (settings : Settings) (layout : Layout),
      ofJsonText (settings.toJson.print layout) = .ok settings) ∧
    ∀ (members : Table (List Char)) (text : String), IsObjectText members text.toList →
      (IsProper members →
        ∃ settings, ofJsonText text = .ok settings ∧ Describes members settings) ∧
      ∀ (front back : Table (List Char)) (field : Field) (value : List Char),
        members = front ++ (field.key, value) :: back → IsProper front →
        field.key ∈ front.keys → ofJsonText text = .error (.json .unsuitable) := by
  refine ⟨fun settings layout => ?_, fun members text h => ⟨exists_ofJsonText h, ?_⟩⟩
  · obtain ⟨result, hread, hdescribes⟩ :=
      exists_ofJsonText (isObjectText_print settings layout) (isProper_texts settings)
    rw [hread, hdescribes.unique (describes_texts settings)]
  · rintro front back field value rfl hproper hmem
    exact ofJsonText_repeated h hproper hmem

/-- The number and the half of a character in the list would not be kept. The list is passed over,
before a number that just fits and a key that is spelled with an escape, and before a key that is
repeated. -/
theorem ofJsonText_arranged_around_list :
    ofJsonText
      "\x7b\"z\":[1e999,\"\\ud800\"],\"maxDepth\":18446744073709551615,\"\\u0073plit\": true\x7d" =
      .ok { split := true, maxDepth := 18446744073709551615 } ∧
    ofJsonText "\x7b\"split\":true,\"z\":[1e999,\"\\ud800\"],\"split\":null\x7d" =
      .error (.json .unsuitable) := by
  constructor
  · obtain ⟨settings, hread, hsettings⟩ :=
      (ofJsonText_arranged.2 _ _ isObjectText_afterList).1 isProper_afterList
    rw [hread, hsettings.unique describes_afterList]
    rfl
  · exact (ofJsonText_arranged.2 _ _ isObjectText_repeated).2 beforeList [] .split _ rfl
      isProper_beforeList (by decide)

end StyleTree.Settings
