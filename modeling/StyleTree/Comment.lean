/-!
# Comments

A comment runs from `/*` to the next `*/`, which shares no character with the opening. Comments do
not nest, and an opening without a closing is not a complete comment.
-/

namespace StyleTree

namespace Comment

/-- The text after an opening, divided at the first closing. Without a closing there is none. -/
def close? : List Char → Option (List Char × List Char)
  | [] => none
  | '*' :: '/' :: rest => some ([], rest)
  | c :: rest => (close? rest).map fun (inside, after) => (c :: inside, after)

/-- The division loses nothing but the closing. -/
theorem eq_append_of_close? {text inside after : List Char}
    (h : close? text = some (inside, after)) : text = inside ++ '*' :: '/' :: after := by
  fun_induction close? text generalizing inside with
  | case1 => simp at h
  | case2 rest => simp_all
  | case3 c rest _ ih =>
    obtain ⟨⟨i, a⟩, hclose, heq⟩ := Option.map_eq_some_iff.1 h
    obtain ⟨rfl, rfl⟩ := Prod.mk.inj heq
    rw [ih hclose]
    rfl

theorem length_lt_of_close? {text inside after : List Char}
    (h : close? text = some (inside, after)) : after.length < text.length := by
  rw [eq_append_of_close? h, List.length_append, List.length_cons, List.length_cons]
  omega

/-- The text without its complete comments, found from left to right. What surrounds a comment
is joined and not looked at again, and an opening that is never closed stays. -/
def stripChars : List Char → List Char
  | [] => []
  | '/' :: '*' :: rest =>
    match _ : close? rest with
    | some (_, after) => stripChars after
    | none => '/' :: '*' :: rest
  | c :: rest => c :: stripChars rest
termination_by text => text.length
decreasing_by
  · have := length_lt_of_close? ‹_›
    simp only [List.length_cons]
    omega
  · simp only [List.length_cons]
    omega

/-- A style sheet without its complete comments. -/
def strip (css : String) : String :=
  String.ofList (stripChars css.toList)

end Comment

end StyleTree
