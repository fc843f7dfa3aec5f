import StyleTree.Proofs.Enclosure.Bytes
import StyleTree.Proofs.Token.Comments

/-!
# Runs and comments byte by byte

All texts that are cut out by a search over bytes start and end between two characters, and they are
those that are found if the style sheet is read character by character.
-/

namespace StyleTree

/-! ### Comments -/

namespace Comment

/-- The offset of the first closing. -/
def closing? : List UInt8 → Option Nat
  | [] => none
  | byte :: rest =>
    if byte = '*'.toUInt8 ∧ rest.head? = some '/'.toUInt8 then some 0
    else (closing? rest).map (· + 1)

/-- The offset at which the comment ends that is opened at an offset. It is the end of the input for
a comment without a closing. -/
def stop? (input : List UInt8) (start : Nat) : Option Nat :=
  (Text.slice? input (start + 2) input.length).map fun body =>
    match closing? body with
    | some offset => start + 2 + offset + 2
    | none => input.length

/-- The comment at an offset, and the offset behind it. -/
def textAt? (input : List UInt8) (start : Nat) : Option (List UInt8 × Nat) := do
  let stop ← stop? input start
  let text ← Text.slice? input start stop
  return (text, stop)

theorem closing?_append_of_le {bytes : List UInt8} (h : ∀ byte ∈ bytes, 128 ≤ byte.toNat)
    (more : List UInt8) :
    closing? (bytes ++ more) = (closing? more).map (· + bytes.length) := by
  induction bytes with
  | nil => simp
  | cons byte rest ih =>
    obtain ⟨hbyte, hrest⟩ := List.forall_mem_cons.1 h
    have hne : byte ≠ '*'.toUInt8 := Text.ne_toUInt8_of_le hbyte (by decide)
    rw [List.cons_append, closing?, if_neg fun hstar => hne hstar.1, ih hrest, Option.map_map]
    rfl

/-- The closing is found where it is between the characters. -/
theorem closing?_encode (body : List Char) :
    closing? (Text.encode body) = (close? body).map fun (inside, _) => Text.byteLength inside := by
  fun_induction close? body with
  | case1 => rfl
  | case2 rest => rfl
  | case3 c rest hopen ih =>
    have hclosing : ¬(c = '*' ∧ rest.head? = some '/') := by
      rintro ⟨rfl, hslash⟩
      obtain ⟨tail, rfl⟩ := List.head?_eq_some_iff.1 hslash
      exact hopen tail rfl rfl
    have hstep : closing? (String.utf8EncodeChar c ++ Text.encode rest) =
        (closing? (Text.encode rest)).map (· + c.utf8Size) := by
      rcases Nat.lt_or_ge c.toNat 128 with hc | hc
      · rw [← Text.toUInt8_inj_of_lt hc (by decide),
          ← Text.head?_encode_eq_some_iff (by decide)] at hclosing
        rw [Text.utf8EncodeChar_of_lt hc, List.singleton_append, closing?, if_neg hclosing,
          Text.utf8Size_of_lt hc]
      · rw [closing?_append_of_le fun _ => Text.le_of_mem_utf8EncodeChar hc,
          String.length_utf8EncodeChar]
    rw [Text.encode_cons, hstep, ih, Option.map_map, Option.map_map]
    congr 1
    funext pair
    exact Nat.add_comm _ _

/-- A comment ends where its text does. -/
theorem stop?_encode (front body : List Char) :
    stop? (Text.encode (front ++ '/' :: '*' :: body)) (Text.byteLength front) =
      some (Text.byteLength (front ++ Scan.commentOf body)) := by
  have hopening : Text.byteLength ['/', '*'] = 2 := by decide
  have hclosing : Text.byteLength ['*', '/'] = 2 := by decide
  have hbody := Text.slice?_encode_length (front ++ ['/', '*']) body
  rw [List.append_assoc, Text.byteLength_append, hopening] at hbody
  have hstop : stop? (Text.encode (front ++ (['/', '*'] ++ body))) (Text.byteLength front) =
      some (match closing? (Text.encode body) with
        | some offset => Text.byteLength front + 2 + offset + 2
        | none => (Text.encode (front ++ (['/', '*'] ++ body))).length) :=
    congrArg (Option.map _) hbody
  refine hstop.trans (congrArg some ?_)
  rw [closing?_encode, Scan.commentOf]
  cases close? body with
  | none =>
    simp only [Option.map_none, Text.length_encode]
    rfl
  | some pair =>
    obtain ⟨inside, rest⟩ := pair
    have hcomment : Text.byteLength (front ++ (['/', '*'] ++ (inside ++ ['*', '/']))) =
        Text.byteLength front + 2 + Text.byteLength inside + 2 := by
      simp only [Text.byteLength_append, hopening, hclosing, Nat.add_assoc]
    exact hcomment.symm

theorem textAt?_encode (front body : List Char) :
    textAt? (Text.encode (front ++ '/' :: '*' :: body)) (Text.byteLength front) =
      some (Text.encode (Scan.commentOf body), Text.byteLength (front ++ Scan.commentOf body)) := by
  obtain ⟨rest, hrest⟩ := Scan.commentOf_prefix body
  have htext := Text.slice?_encode front (Scan.commentOf body) rest
  rw [List.append_assoc, hrest] at htext
  rw [textAt?, stop?_encode, Option.bind_eq_bind, Option.bind_some, htext]
  rfl

theorem lt_of_stop? {input : List UInt8} {start stop : Nat} (hstart : start < input.length)
    (h : stop? input start = some stop) : start < stop := by
  obtain ⟨body, -, rfl⟩ := Option.map_eq_some_iff.1 h
  split <;> omega

end Comment

/-! ### Runs -/

/-- The offset at which reading goes on if a mark at `index` has ended a run. A closing brace stays
in its place. -/
def Ending.resume (index : Nat) : Ending → Nat
  | .opening => index + 1
  | .closing => index
  | .semicolon => index + 1

namespace ByteEnclosure

/-- What one pass of the loop over the bytes of a run does. -/
inductive Pass where
  /-- The byte ends the run. -/
  | ends (ending : Ending)
  /-- The loop goes on at an offset. -/
  | goesOn (enclosure : ByteEnclosure) (index : Nat)
deriving DecidableEq, Repr

/-- One pass of the loop, for the byte at `index`. -/
def pass (input : List UInt8) (e : ByteEnclosure) (index : Nat) (byte : UInt8) : Option Pass :=
  if byte = '\x7b'.toUInt8 then some (.ends .opening)
  else if byte = '\x7d'.toUInt8 then some (.ends .closing)
  else if byte = '/'.toUInt8 ∧ e.inString = false ∧ input[index + 1]? = some '*'.toUInt8 then
    (Comment.stop? input index).map (.goesOn e)
  else if (e.advance byte).1 && byte == ';'.toUInt8 then some (.ends .semicolon)
  else some (.goesOn (e.advance byte).2 (index + 1))

theorem lt_of_pass {input : List UInt8} {e enclosure : ByteEnclosure} {index next : Nat}
    {byte : UInt8} (hindex : index < input.length)
    (h : pass input e index byte = some (.goesOn enclosure next)) : index < next := by
  unfold pass at h
  split_ifs at h with hopening hclosing hcomment hsemicolon
  · cases h
  · cases h
  · obtain ⟨stop, hstop, hgoes⟩ := Option.map_eq_some_iff.1 h
    obtain ⟨-, rfl⟩ := Pass.goesOn.inj hgoes
    exact Comment.lt_of_stop? hindex hstop
  · cases h
  · obtain ⟨-, rfl⟩ := Pass.goesOn.inj (Option.some.inj h)
    exact Nat.lt_succ_self index

/-- The run that starts at an offset, what ends it and the offset at which reading goes on. There is
no run if nothing ends it, and no result at all if one of the cuts would go through a character. -/
def run (input : List UInt8) (start : Nat) (e : ByteEnclosure) (index : Nat) :
    Option (Option (List UInt8 × Ending × Nat)) :=
  if hindex : index < input.length then
    match hpass : pass input e index input[index] with
    | none => none
    | some (.ends ending) =>
      (Text.slice? input start index).map fun text => some (text, ending, ending.resume index)
    | some (.goesOn enclosure next) => run input start enclosure next
  else
    -- What nothing ends is cut out too, to report it.
    (Text.slice? input start input.length).map fun _ => none
termination_by input.length - index
decreasing_by
  have := lt_of_pass hindex hpass
  omega

variable {input : List UInt8} {start index : Nat} {e : ByteEnclosure} {byte : UInt8}

theorem run_of_ends {ending : Ending} (hbyte : input[index]? = some byte)
    (h : pass input e index byte = some (.ends ending)) :
    run input start e index =
      (Text.slice? input start index).map fun text =>
        some (text, ending, ending.resume index) := by
  obtain ⟨hindex, rfl⟩ := List.getElem?_eq_some_iff.1 hbyte
  rw [run, dif_pos hindex]
  split <;> rename_i hpass <;> rw [h] at hpass
  · cases hpass
  · obtain rfl := Pass.ends.inj (Option.some.inj hpass)
    rfl
  · cases hpass

theorem run_of_goesOn {enclosure : ByteEnclosure} {next : Nat} (hbyte : input[index]? = some byte)
    (h : pass input e index byte = some (.goesOn enclosure next)) :
    run input start e index = run input start enclosure next := by
  obtain ⟨hindex, rfl⟩ := List.getElem?_eq_some_iff.1 hbyte
  rw [run, dif_pos hindex]
  split <;> rename_i hpass <;> rw [h] at hpass
  · cases hpass
  · cases hpass
  · obtain ⟨rfl, rfl⟩ := Pass.goesOn.inj (Option.some.inj hpass)
    rfl

theorem run_of_length (input : List UInt8) (start : Nat) (e : ByteEnclosure) :
    run input start e input.length =
      (Text.slice? input start input.length).map fun _ => none := by
  rw [run, dif_neg (Nat.lt_irrefl _)]

/-! ### One character -/

variable {scan : Scan} {enclosure : Enclosure} {c : Char}

theorem pass_of_ending? (henclosure : scan.enclosure? = some enclosure) (h : enclosure.IsSound)
    {ending : Ending} (hending : scan.ending? c = some ending) (input : List UInt8) (index : Nat) :
    pass input enclosure.toBytes index c.toUInt8 = some (.ends ending) := by
  obtain rfl := Scan.eq_mark_of_ending? hending
  cases ending with
  | opening => rfl
  | closing => rfl
  | semicolon =>
    have hexposes : enclosure.exposes ';' = true := by
      by_contra hhidden
      simp [Scan.ending?, henclosure, Ending.mark, hhidden] at hending
    have hadvance : enclosure.toBytes.advance ';'.toUInt8 =
        (true, (enclosure.next ';').toBytes) := by
      rw [advance_toUInt8 h (by decide), hexposes]
    have hbrace : ';'.toUInt8 ≠ '\x7b'.toUInt8 ∧ ';'.toUInt8 ≠ '\x7d'.toUInt8 ∧
        ';'.toUInt8 ≠ '/'.toUInt8 := by decide
    rw [Ending.mark, pass, if_neg hbrace.1, if_neg hbrace.2.1, if_neg fun hc => hbrace.2.2 hc.1,
      hadvance]
    rfl

/-- The loop goes on behind a comment. -/
theorem pass_comment (hstring : enclosure.inString = false) (before body : List Char) :
    pass (Text.encode (before ++ '/' :: '*' :: body)) enclosure.toBytes (Text.byteLength before)
        '/'.toUInt8 =
      some (.goesOn enclosure.toBytes (Text.byteLength (before ++ Scan.commentOf body))) := by
  have hopening : '/'.toUInt8 = '/'.toUInt8 ∧ enclosure.toBytes.inString = false ∧
      (Text.encode (before ++ '/' :: '*' :: body))[Text.byteLength before + 1]? =
        some '*'.toUInt8 := by
    refine ⟨rfl, (inString_toBytes enclosure).trans hstring, ?_⟩
    rw [Text.getElem?_encode_succ (by decide), Text.head?_encode_eq_some_iff (by decide)]
    rfl
  rw [pass, if_neg (by decide), if_neg (by decide), if_pos hopening, Comment.stop?_encode]
  rfl

/-- The loop goes on behind an ASCII character that neither ends the run nor opens a comment. -/
theorem pass_toUInt8 (henclosure : scan.enclosure? = some enclosure) (h : enclosure.IsSound)
    (hending : scan.ending? c = none) (hc : c.toNat < 128) {before rest : List Char}
    (hcomment : ¬(c = '/' ∧ enclosure.inString = false ∧ rest.head? = some '*')) :
    pass (Text.encode (before ++ c :: rest)) enclosure.toBytes (Text.byteLength before) c.toUInt8 =
      some (.goesOn (enclosure.next c).toBytes (Text.byteLength before + 1)) := by
  have hsame : ∀ d : Char, d.toNat < 128 → (c.toUInt8 = d.toUInt8 ↔ c = d) :=
    fun d hd => Text.toUInt8_inj_of_lt hc hd
  simp only [Scan.ending?, henclosure] at hending
  split_ifs at hending with hopening hclosing hsemicolon
  have hslash : ¬(c.toUInt8 = '/'.toUInt8 ∧ enclosure.toBytes.inString = false ∧
      (Text.encode (before ++ c :: rest))[Text.byteLength before + 1]? = some '*'.toUInt8) := by
    rwa [hsame '/' (by decide), inString_toBytes, Text.getElem?_encode_succ hc,
      Text.head?_encode_eq_some_iff (by decide)]
  have hmark : ¬(enclosure.exposes c && c.toUInt8 == ';'.toUInt8) = true := by
    rw [Bool.and_eq_true, beq_iff_eq, hsame ';' (by decide), and_comm]
    exact hsemicolon
  rw [pass, if_neg (mt (hsame _ (by decide)).1 hopening),
    if_neg (mt (hsame _ (by decide)).1 hclosing), if_neg hslash, advance_toUInt8 h hc, if_neg hmark]

theorem run_of_le {bytes : List UInt8} (hbytes : ∀ byte ∈ bytes, 128 ≤ byte.toNat)
    (left right : List UInt8) (start : Nat) (e : ByteEnclosure) :
    run (left ++ bytes ++ right) start e left.length =
      run (left ++ bytes ++ right) start (e.after bytes) (left ++ bytes).length := by
  induction bytes generalizing left e with
  | nil => rw [List.append_nil]; rfl
  | cons byte rest ih =>
    obtain ⟨hbyte, hrest⟩ := List.forall_mem_cons.1 hbytes
    have hne : ∀ d : Char, d.toNat < 128 → byte ≠ d.toUInt8 := fun _ => Text.ne_toUInt8_of_le hbyte
    have hpass : pass (left ++ byte :: rest ++ right) e left.length byte =
        some (.goesOn (e.advance byte).2 (left.length + 1)) := by
      simp [pass, hne '\x7b' (by decide), hne '\x7d' (by decide), hne '/' (by decide),
        hne ';' (by decide)]
    have hget : (left ++ byte :: rest ++ right)[left.length]? = some byte := by simp
    have hlater := ih hrest (left ++ [byte]) (e.advance byte).2
    rw [run_of_goesOn hget hpass, after_cons]
    simpa using hlater

theorem run_next (henclosure : scan.enclosure? = some enclosure) (h : enclosure.IsSound)
    (hending : scan.ending? c = none) {before rest : List Char}
    (hcomment : ¬(c = '/' ∧ enclosure.inString = false ∧ rest.head? = some '*')) (start : Nat) :
    run (Text.encode (before ++ c :: rest)) start enclosure.toBytes (Text.byteLength before) =
      run (Text.encode (before ++ c :: rest)) start (enclosure.next c).toBytes
        (Text.byteLength (before ++ [c])) := by
  rcases Nat.lt_or_ge c.toNat 128 with hc | hc
  · rw [run_of_goesOn (Text.getElem?_encode_cons hc before rest)
      (pass_toUInt8 henclosure h hending hc hcomment), Text.byteLength_concat_of_lt hc]
  · have hrun := run_of_le (fun _ => Text.le_of_mem_utf8EncodeChar hc) (Text.encode before)
      (Text.encode rest) start enclosure.toBytes
    rw [after_utf8EncodeChar h] at hrun
    simpa using hrun

theorem run_mark (henclosure : scan.enclosure? = some enclosure) (h : enclosure.IsSound)
    {ending : Ending} (hending : scan.ending? c = some ending) (before rest : List Char)
    (start : Nat) :
    run (Text.encode (before ++ c :: rest)) start enclosure.toBytes (Text.byteLength before) =
      (Text.slice? (Text.encode (before ++ c :: rest)) start (Text.byteLength before)).map
        fun text => some (text, ending, ending.resume (Text.byteLength before)) := by
  have hc : c.toNat < 128 := by
    rw [Scan.eq_mark_of_ending? hending]
    cases ending <;> decide
  exact run_of_ends (Text.getElem?_encode_cons hc before rest)
    (pass_of_ending? henclosure h hending _ _)

/-- The loop goes over a comment at once. -/
theorem run_comment (hstring : enclosure.inString = false) (before body : List Char) (start : Nat) :
    run (Text.encode (before ++ '/' :: '*' :: body)) start enclosure.toBytes
        (Text.byteLength before) =
      run (Text.encode (before ++ '/' :: '*' :: body)) start enclosure.toBytes
        (Text.byteLength (before ++ Scan.commentOf body)) :=
  run_of_goesOn (Text.getElem?_encode_cons (by decide) before ('*' :: body))
    (pass_comment hstring before body)

/-- Nothing ends a run that holds a comment without a closing. -/
theorem run_unclosed (hstring : enclosure.inString = false) {body : List Char}
    (hclose : Comment.close? body = none) (front read : List Char) :
    run (Text.encode (front ++ read ++ '/' :: '*' :: body)) (Text.byteLength front)
        enclosure.toBytes (Text.byteLength (front ++ read)) = some none := by
  have hcomment : '/' :: '*' :: body = Scan.commentOf body := by
    rw [Scan.commentOf, hclose]
  rw [run_comment hstring, hcomment, ← Text.length_encode (front ++ read ++ _), run_of_length,
    List.append_assoc, Text.slice?_encode_length]
  rfl

/-! ### Texts -/

/-- What the loop finds if a run is found character by character. -/
def found (front read : List Char) : List Char × Ending × List Char → List UInt8 × Ending × Nat
  | (taken, ending, _) =>
    (Text.encode (read ++ taken), ending, ending.resume (Text.byteLength (front ++ read ++ taken)))

theorem found_append (front read text : List Char) (division : List Char × Ending × List Char) :
    found front (read ++ text) division =
      found front read (text ++ division.1, division.2.1, division.2.2) := by
  simp [found]

/-- What the scanner passes over is read. -/
theorem map_found_run {text : List Char} (h : scan.Passes text) (front read rest : List Char) :
    (Scan.run scan (text ++ rest)).map (found front read) =
      (Scan.run (scan.after text) rest).map (found front (read ++ text)) := by
  rw [Scan.run_append_of_passes h, Option.map_map]
  congr 1
  funext division
  exact (found_append front read text division).symm

/-- The run at an offset is that of the characters there, of which `read` has been read. -/
theorem run_encode_append (front read rest : List Char) {scan : Scan} {enclosure : Enclosure}
    (henclosure : scan.enclosure? = some enclosure) (h : enclosure.IsSound)
    (hopen : ∀ c ∈ rest.head?, scan.opened? c = none) :
    run (Text.encode (front ++ read ++ rest)) (Text.byteLength front) enclosure.toBytes
        (Text.byteLength (front ++ read)) =
      some ((Scan.run scan rest).map (found front read)) := by
  match rest with
  | [] =>
    rw [List.append_nil, ← Text.length_encode (front ++ read), run_of_length,
      Text.slice?_encode_length]
    rfl
  | c :: others =>
    cases hending : scan.ending? c with
    | some ending =>
      rw [run_mark henclosure h hending, Text.slice?_encode, Scan.run, hending]
      simp [found]
    | none =>
      by_cases hcomment : c = '/' ∧ enclosure.inString = false ∧ others.head? = some '*'
      · obtain ⟨rfl, hstring, hstar⟩ := hcomment
        obtain ⟨body, hbody⟩ := List.head?_eq_some_iff.1 hstar
        rw [hbody]
        cases hclose : Comment.close? body with
        | none =>
          obtain ⟨hcomment, hpasses⟩ := Scan.passes_unclosed henclosure hstring hclose
          rw [run_unclosed hstring hclose, hcomment, Scan.run_eq_none_iff.2 hpasses]
          rfl
        | some pair =>
          obtain ⟨inside, after⟩ := pair
          obtain ⟨hcomment, hpasses, hafter⟩ := Scan.passes_comment henclosure hstring hclose
          have hlength : after.length < others.length := by
            rw [hbody, List.length_cons]
            exact Nat.lt_succ_of_lt (Comment.length_lt_of_close? hclose)
          have hlater := run_encode_append front (read ++ Scan.commentOf body) after
            (Scan.enclosure?_text enclosure) h fun _ _ => rfl
          rw [run_comment hstring, hcomment, map_found_run hpasses, hafter, ← hlater]
          simp only [List.append_assoc]
      · have hopened : scan.opened? c = none := hopen c rfl
        -- The next character opens no comment either.
        have hlater := run_encode_append front (read ++ [c]) others
          (Scan.enclosure?_next henclosure hopened) (h.next c) fun d hd => by
            rw [Scan.next_eq_nextInText henclosure hopened]
            exact Scan.opened?_nextInText
              fun hslash hstring hstar => hcomment ⟨hslash, hstring, hstar ▸ hd⟩
        have hpasses : scan.Passes [c] := ⟨hending, trivial⟩
        rw [run_next henclosure h hending hcomment, ← List.singleton_append, map_found_run hpasses,
          ← List.append_assoc, List.append_assoc front]
        exact hlater
termination_by rest.length

theorem run_encode (front text : List Char) :
    run (Text.encode (front ++ text)) (Text.byteLength front) {} (Text.byteLength front) =
      some ((Scan.run .start text).map fun (taken, ending, _) =>
        (Text.encode taken, ending, ending.resume (Text.byteLength (front ++ taken)))) := by
  have hfound : found front [] = fun (taken, ending, _) =>
      (Text.encode taken, ending, ending.resume (Text.byteLength (front ++ taken))) := by
    funext division
    rw [found, List.append_nil, List.nil_append]
  have hrun := run_encode_append front [] text (Scan.enclosure?_text {})
    Enclosure.isSound_default fun _ _ => rfl
  rwa [List.append_nil, hfound] at hrun

end ByteEnclosure

/-- The places at which the tokens of a style sheet start are between two characters. -/
theorem Cursor.LiesIn.exists_front {css : String} {place : Cursor} (h : place.LiesIn css) :
    ∃ front, css.toList = front ++ place.rest.dropWhile isFiller ∧
      place.offset + Text.byteLength place.gap = Text.byteLength front := by
  obtain ⟨before, hbefore, hoffset⟩ := h
  refine ⟨before ++ place.gap, ?_, ?_⟩
  · rw [List.append_assoc, place.gap_append, hbefore]
  · rw [Text.byteLength_append, hoffset]

/-- Reading the bytes of a text comes to the same as reading its characters. The same is open at the
end, and the same separators are exposed on the way; a character that is not ASCII ends an escape
and has no other meaning. When the text is cut at its separators, or at a comment or run that starts
between two characters, then no cut goes through a character, and what is cut out is what is found
among the characters. The tokens of a style sheet start at such places. -/
theorem scan_toUTF8 (css : String) :
    let bytes := css.toUTF8.data.toList
    ByteEnclosure.after {} bytes = (Enclosure.after {} css.toList).toBytes ∧
      (∀ front c, 128 ≤ c.toNat →
        Enclosure.after {} (front ++ [c]) = { Enclosure.after {} front with escaped := false }) ∧
      (∀ separator : Char, separator.toNat < 128 →
        ByteEnclosure.offsets separator.toUInt8 0 {} bytes =
            Enclosure.offsets separator 0 {} css.toList ∧
          ByteEnclosure.cut? separator.toUInt8 bytes =
            some ((Enclosure.cut? separator {} css.toList).map fun (before, after) =>
              (Text.encode before, Text.encode after)) ∧
          ByteEnclosure.segments separator.toUInt8 bytes =
            some ((Enclosure.segments separator {} css.toList).map Text.encode)) ∧
      (∀ front body, css.toList = front ++ '/' :: '*' :: body →
        Comment.textAt? bytes (Text.byteLength front) =
          some (Text.encode (Scan.commentOf body),
            Text.byteLength (front ++ Scan.commentOf body))) ∧
      (∀ front text, css.toList = front ++ text →
        ByteEnclosure.run bytes (Text.byteLength front) {} (Text.byteLength front) =
          some ((Scan.run .start text).map fun (taken, ending, _) =>
            (Text.encode taken, ending, ending.resume (Text.byteLength (front ++ taken))))) ∧
      ∀ n, let place := (Cursor.start css).skip n
        ∃ front, css.toList = front ++ place.rest.dropWhile isFiller ∧
          place.offset + Text.byteLength place.gap = Text.byteLength front := by
  intro bytes
  have hbytes : bytes = Text.encode css.toList := Text.toList_toUTF8 css
  have hsound := Enclosure.isSound_default
  refine ⟨?_, fun front c hc => ?_, fun separator hseparator => ⟨?_, ?_, ?_⟩,
    fun front body htext => ?_, fun front text htext => ?_, fun n => ?_⟩
  · rw [hbytes]
    exact ByteEnclosure.after_encode hsound css.toList
  · rw [Enclosure.after_append]
    exact Enclosure.next_of_isDelimiter_eq_false (hsound.after front)
      (ByteEnclosure.isDelimiter_of_le hc)
  · rw [hbytes]
    exact ByteEnclosure.offsets_encode hsound hseparator 0 css.toList
  · rw [hbytes, ByteEnclosure.cut?_encode hseparator]
  · rw [hbytes, ByteEnclosure.segments_encode hseparator]
  · rw [hbytes, htext, Comment.textAt?_encode]
  · rw [hbytes, htext, ByteEnclosure.run_encode]
  · exact ((Cursor.liesIn_start css).skip n).exists_front

/-- A comment, an escape and a string next to characters of two bytes. -/
theorem scan_toUTF8_escaped :
    let css := "/*é;*/\\é: \";\" ü; b"
    ByteEnclosure.offsets ';'.toUInt8 0 {} css.toUTF8.data.toList = [4, 18] ∧
      ByteEnclosure.cut? ':'.toUInt8 css.toUTF8.data.toList =
        some (some (Text.encode "/*é;*/\\é".toList, Text.encode " \";\" ü; b".toList)) ∧
      Comment.textAt? css.toUTF8.data.toList 0 = some (Text.encode "/*é;*/".toList, 7) ∧
      ByteEnclosure.run css.toUTF8.data.toList 7 {} 7 =
        some (some (Text.encode "\\é: \";\" ü".toList, .semicolon, 19)) := by
  intro css
  obtain ⟨-, -, hcuts, hcomment, hrun, -⟩ := scan_toUTF8 css
  refine ⟨(hcuts ';' (by decide)).1.trans (by decide +kernel),
    (hcuts ':' (by decide)).2.1.trans (by decide +kernel),
    (hcomment [] "é;*/\\é: \";\" ü; b".toList (by decide +kernel)).trans (by decide +kernel),
    (hrun "/*é;*/".toList "\\é: \";\" ü; b".toList (by decide +kernel)).trans
      (by decide +kernel)⟩

end StyleTree
