import StyleTree.Block
import StyleTree.Proofs.Text.Trim
import StyleTree.Proofs.Token.Separators

namespace StyleTree

namespace Enclosure

variable {separator : Char} {enclosure : Enclosure}

/-- Nothing is open where a character is exposed. -/
theorem eq_default_of_exposes {c : Char} (h : enclosure.exposes c = true) : enclosure = {} := by
  obtain ⟨depth, quote, escaped⟩ := enclosure
  simp only [exposes, Bool.and_eq_true, Bool.not_eq_true', Option.isNone_iff_eq_none,
    beq_iff_eq] at h
  obtain ⟨⟨⟨rfl, rfl⟩, rfl⟩, -⟩ := h
  rfl

/-! ### Divisions -/

/-- The parts of a text between the exposed occurrences of a separator, which are those at the given
offsets, and between them and the ends of the text. -/
structure IsDivision (separator : Char) (text : List Char) (parts : List (List Char)) : Prop where
  ne_nil : parts ≠ []
  /-- Nothing but the separators is between the parts. -/
  eq_intercalate : text = [separator].intercalate parts
  /-- The separators between the parts are the exposed ones. -/
  ends_eq : ends separator 0 parts = offsets separator 0 {} text

theorem intercalate_segments (text : List Char) :
    [separator].intercalate (segments separator enclosure text) = text := by
  induction text generalizing enclosure with
  | nil => rfl
  | cons c rest ih =>
    obtain ⟨piece, others, hsegments⟩ :=
      List.exists_cons_of_ne_nil (segments_ne_nil separator (enclosure.next c) rest)
    have hrest : [separator].intercalate (segments separator (enclosure.next c) rest) = rest := ih
    rw [segments, hsegments] at *
    split_ifs with hc
    · rw [hc.1, List.intercalate_cons_cons, hrest]
      rfl
    · cases others with
      | nil => simpa using hrest
      | cons other others =>
        rw [List.modifyHead_cons, List.intercalate_cons_cons, List.cons_append, List.cons_append,
          ← List.intercalate_cons_cons, hrest]

/-- The parts of a text are determined by their ends. -/
theorem eq_of_ends_eq {parts others : List (List Char)} (hne : parts ≠ []) (hother : others ≠ [])
    (htext : [separator].intercalate parts = [separator].intercalate others) {start : Nat}
    (hends : ends separator start parts = ends separator start others) : parts = others := by
  match parts, others with
  | [part], [other] => simpa using htext
  | [_], _ :: _ :: _ => simp [ends] at hends
  | _ :: _ :: _, [_] => simp [ends] at hends
  | part :: next :: parts, other :: following :: others =>
    rw [ends, ends, List.cons.injEq] at hends
    obtain ⟨hlength, hrest⟩ := hends
    rw [List.intercalate_cons_cons, List.intercalate_cons_cons, List.append_assoc,
      List.append_assoc] at htext
    obtain ⟨rfl, hbehind⟩ := Text.append_inj_of_byteLength htext (by omega)
    rw [eq_of_ends_eq (List.cons_ne_nil next parts) (List.cons_ne_nil following others)
      (List.append_cancel_left hbehind) hrest]

/-- There is one division of a text. -/
theorem isDivision_iff {text : List Char} {parts : List (List Char)} :
    IsDivision separator text parts ↔ parts = segments separator {} text := by
  have hsegments : IsDivision separator text (segments separator {} text) :=
    ⟨segments_ne_nil _ _ _, (intercalate_segments text).symm,
      (offsets_eq_ends_segments 0 text).symm⟩
  constructor
  · intro h
    exact eq_of_ends_eq h.ne_nil hsegments.ne_nil
      (h.eq_intercalate.symm.trans hsegments.eq_intercalate)
      (h.ends_eq.trans hsegments.ends_eq.symm)
  · rintro rfl
    exact hsegments

/-! ### Parts read alone -/

/-- The first part hides the separator where it stands, and the others do if they are read alone. -/
theorem hides_of_segments_eq_cons {text part : List Char} {others : List (List Char)}
    (h : segments separator enclosure text = part :: others) :
    enclosure.Hides separator part ∧
      ∀ other ∈ others, ({} : Enclosure).Hides separator other := by
  induction text generalizing enclosure part others with
  | nil =>
    obtain ⟨rfl, rfl⟩ := List.cons.inj h
    exact ⟨trivial, by simp⟩
  | cons c rest ih =>
    obtain ⟨first, tail, hrest⟩ :=
      List.exists_cons_of_ne_nil (segments_ne_nil separator (enclosure.next c) rest)
    obtain ⟨hfirst, htail⟩ := ih hrest
    rw [segments, hrest] at h
    split_ifs at h with hc
    · obtain ⟨rfl, rfl⟩ := List.cons.inj h
      refine ⟨trivial, List.forall_mem_cons.2 ⟨?_, htail⟩⟩
      rw [next_of_exposes hc.2, eq_default_of_exposes hc.2] at hfirst
      exact hfirst
    · rw [List.modifyHead_cons] at h
      obtain ⟨rfl, rfl⟩ := List.cons.inj h
      exact ⟨⟨hc, hfirst⟩, htail⟩

theorem hides_of_mem_segments {text part : List Char}
    (h : part ∈ segments separator {} text) : ({} : Enclosure).Hides separator part := by
  obtain ⟨first, others, hsegments⟩ :=
    List.exists_cons_of_ne_nil (segments_ne_nil separator {} text)
  obtain ⟨hfirst, hothers⟩ := hides_of_segments_eq_cons hsegments
  rw [hsegments] at h
  rcases List.mem_cons.1 h with rfl | hother
  · exact hfirst
  · exact hothers part hother

theorem segments_of_hides {text : List Char} (h : enclosure.Hides separator text) :
    segments separator enclosure text = [text] := by
  induction text generalizing enclosure with
  | nil => rfl
  | cons c rest ih => rw [segments, if_neg h.1, ih h.2, List.modifyHead_cons]

/-- Trimming exposes no separator. -/
theorem Hides.trim {text : List Char} (h : ({} : Enclosure).Hides separator text) :
    ({} : Enclosure).Hides separator (Text.trim text) := by
  obtain ⟨front, back, hfront, -, htext⟩ := Text.exists_append_trim_append text
  have hjoints : ∀ c ∈ front, isJoint c = true := fun c hc => isJoint_of_isBlank (hfront c hc)
  rw [htext, List.append_assoc, hides_append,
    after_joints isSound_default rfl hjoints, hides_append] at h
  exact h.2.1

end Enclosure

namespace Selector

/-- The pieces of a list of selectors are the parts between its exposed commas, trimmed and in
order, without those of which nothing is left. Each of them is the only piece of itself. -/
theorem pieces_of_pieces (selector : String) :
    (∃ parts, (∀ others, Enclosure.IsDivision ',' selector.toList others ↔ others = parts) ∧
        (pieces selector).map String.toList = (parts.map Text.trim).filter (· ≠ [])) ∧
      ∀ piece ∈ pieces selector, pieces piece = [piece] := by
  refine ⟨⟨_, fun _ => Enclosure.isDivision_iff, ?_⟩, fun piece hpiece => ?_⟩
  · have hlists : String.toList ∘ String.ofList = id := funext fun _ => String.toList_ofList
    rw [pieces, List.map_map, hlists, List.map_id]
  · obtain ⟨text, htext, rfl⟩ := List.mem_map.1 hpiece
    obtain ⟨hmem, hne⟩ := List.mem_filter.1 htext
    obtain ⟨part, hpart, rfl⟩ := List.mem_map.1 hmem
    have hhides := (Enclosure.hides_of_mem_segments hpart).trim
    have hkept : [Text.trim part].filter (· ≠ []) = [Text.trim part] := List.filter_cons_of_pos hne
    rw [pieces, String.toList_ofList, Enclosure.segments_of_hides hhides, List.map_singleton,
      (Text.trimmed_trim part).trim_eq, hkept, List.map_singleton]

/-- The comma in the string and the one behind the backslash divide nothing, nor does the one in the
bracket that is not closed. -/
example : pieces "a\\, b[x=\",\"] ,, c)\\ , :is(d, e" =
    ["a\\, b[x=\",\"]", "c)\\", ":is(d, e"] := by
  decide +kernel

end Selector

end StyleTree
