import StyleTree.Proofs.Block.Places
import StyleTree.Proofs.Text.Quoted

namespace StyleTree

namespace Misfit

/-! ### Paths -/

/-- What a path has for the member that holds the nested blocks. -/
def marker : List Char :=
  ['.', 'c', 'h', 'i', 'l', 'd', 'r', 'e', 'n']

/-- One step of a path, from a block to one that is nested in it. -/
def segment (key : String) : List Char :=
  marker ++ '[' :: (Text.quotedChars key.toList ++ [']'])

/-- The end of a path, which tells what is at fault. -/
def ending (inChildren : Bool) : List Char :=
  if inChildren then marker else []

theorem toList_path (place : Misfit) :
    place.path.toList = '$' :: (place.keys.flatMap segment ++ ending place.inChildren) := by
  have hsegment (key : String) :
      (".children[" ++ Text.quoted key ++ "]").toList = segment key := by
    simp [Text.quoted, segment, marker]
  have hending : (if place.inChildren then ".children" else "").toList =
      ending place.inChildren := by
    cases place.inChildren <;> simp [ending, marker]
  rw [path, String.toList_append, String.toList_append, String.toList_join, hending,
    List.flatMap_map]
  simp only [hsegment]
  rfl

theorem segment_append (key : String) (rest : List Char) :
    segment key ++ rest = marker ++ '[' :: (Text.quotedChars key.toList ++ ']' :: rest) := by
  simp [segment]

/-- A path that goes on is none that ends. -/
theorem segment_append_ne (key : String) (inChildren : Bool) (rest : List Char) :
    segment key ++ rest ≠ ending inChildren := by
  cases inChildren with
  | false => exact List.cons_ne_nil _ _
  | true =>
    intro h
    have hlength := congrArg List.length h
    simp only [segment, ending, List.length_append, List.length_cons, if_true] at hlength
    omega

theorem segments_inj {keys others : List String} {inChildren other : Bool}
    (h : keys.flatMap segment ++ ending inChildren = others.flatMap segment ++ ending other) :
    keys = others ∧ inChildren = other := by
  induction keys generalizing others with
  | nil =>
    cases others with
    | nil =>
      cases inChildren <;> cases other
      · exact ⟨rfl, rfl⟩
      · exact absurd h (by decide)
      · exact absurd h (by decide)
      · exact ⟨rfl, rfl⟩
    | cons key others =>
      rw [List.flatMap_cons, List.append_assoc] at h
      exact absurd h.symm (segment_append_ne key inChildren _)
  | cons key keys ih =>
    rw [List.flatMap_cons, List.append_assoc] at h
    cases others with
    | nil => exact absurd h (segment_append_ne key other _)
    | cons first others =>
      rw [List.flatMap_cons, List.append_assoc, segment_append, segment_append] at h
      -- A quoted key tells where it ends, whatever follows it.
      have hquoted := (List.cons.inj (List.append_cancel_left h)).2
      obtain ⟨hkey, hrest⟩ := Text.quotedChars_append_inj hquoted
      obtain ⟨hkeys, hother⟩ := ih (List.cons.inj hrest).2
      rw [String.toList_injective hkey, hkeys]
      exact ⟨rfl, hother⟩

theorem path_inj {place other : Misfit} : place.path = other.path ↔ place = other := by
  constructor
  · intro h
    have hpath := congrArg String.toList h
    rw [toList_path, toList_path] at hpath
    obtain ⟨hkeys, hother⟩ := segments_inj (List.cons.inj hpath).2
    obtain ⟨keys, inChildren⟩ := place
    obtain rfl : keys = other.keys := hkeys
    obtain rfl : inChildren = other.inChildren := hother
    rfl
  · rintro rfl
    rfl

end Misfit

/-! ### Places -/

namespace Json

theorem mem_places_iff {value place : Json} {keys : List String} :
    (keys, place) ∈ value.places ↔ keys = [] ∧ place = value ∨
      ∃ key child rest, (key, child) ∈ value.nested ∧ (rest, place) ∈ child.places ∧
        keys = key :: rest := by
  rw [places_eq, List.mem_cons, Prod.mk.injEq, List.mem_flatMap]
  apply or_congr_right
  constructor
  · rintro ⟨⟨key, child⟩, hchild, hplace⟩
    obtain ⟨⟨rest, found⟩, hfound, heq⟩ := List.mem_map.1 hplace
    obtain ⟨rfl, rfl⟩ := Prod.mk.inj heq
    exact ⟨key, child, rest, hchild, hfound, rfl⟩
  · rintro ⟨key, child, rest, hchild, hplace, rfl⟩
    exact ⟨(key, child), hchild, List.mem_map.2 ⟨(rest, place), hplace, rfl⟩⟩

/-- No place of a value has two values nested in it under one key. -/
def NestsDistinctly (value : Json) : Prop :=
  ∀ place ∈ value.places, (Table.keys place.2.nested).Nodup

theorem nestsDistinctly_iff {value : Json} : value.NestsDistinctly ↔
    (Table.keys value.nested).Nodup ∧ ∀ entry ∈ value.nested, entry.2.NestsDistinctly :=
  forall_mem_places_iff (P := fun place => (Table.keys place.nested).Nodup)

/-- The keys determine the place, if no key is used twice. -/
theorem eq_of_mem_places {value : Json} (h : value.NestsDistinctly) {keys : List String}
    {held other : Json} (hheld : (keys, held) ∈ value.places)
    (hother : (keys, other) ∈ value.places) : held = other := by
  induction value using nested_induction generalizing keys held other with
  | h value ih =>
    rcases mem_places_iff.1 hheld with ⟨rfl, rfl⟩ | ⟨key, child, rest, hchild, hplace, rfl⟩
    · rcases mem_places_iff.1 hother with ⟨-, rfl⟩ | ⟨_, _, _, -, -, hkeys⟩
      · rfl
      · cases hkeys
    · rcases mem_places_iff.1 hother with ⟨hkeys, -⟩ | ⟨_, next, _, hnext, hfound, hkeys⟩
      · cases hkeys
      · obtain ⟨rfl, rfl⟩ := List.cons.inj hkeys
        obtain ⟨hdistinct, hnested⟩ := nestsDistinctly_iff.1 h
        -- Both steps lead to what the value has under the key.
        have hsame := (Table.find?_eq_some_of_mem hdistinct hchild).symm.trans
          (Table.find?_eq_some_of_mem hdistinct hnext)
        obtain rfl := Option.some.inj hsame
        exact ih _ hchild (hnested _ hchild) hplace hfound

end Json

namespace Block

open Json

/-- The place that an error is about is one of the places that offend. -/
theorem exists_of_ofJson_eq {value : Json} {place : Misfit}
    (h : ofJson value = .error (.notABlock place)) :
    ∃ held, (place.keys, held) ∈ value.places ∧ Offends held place.inChildren := by
  have hmisfit : misfit? value = some place := by
    rw [ofJson] at h
    split at h
    · rename_i misfit hmisfit
      rw [hmisfit]
      simpa using h
    · split at h <;> simp at h
  rw [misfit?_eq] at hmisfit
  obtain ⟨⟨keys, held⟩, hheld, hoffence⟩ := List.exists_of_findSome?_eq_some hmisfit
  rw [offence?, Option.map_eq_some_iff] at hoffence
  obtain ⟨inChildren, hfault, rfl⟩ := hoffence
  exact ⟨held, hheld, offends_iff.2 hfault⟩

/-- Different places have different paths. So the path of an error leads to the place that offends
and to no other one that does. It leads to one place of the value only, if no key is used twice. -/
theorem place_of_path :
    (∀ place other : Misfit, place ≠ other → place.path ≠ other.path) ∧
      ∀ value place, ofJson value = .error (.notABlock place) →
        ∃ held, (place.keys, held) ∈ value.places ∧ Offends held place.inChildren ∧
          ∀ keys other inChildren, (keys, other) ∈ value.places → Offends other inChildren →
            (⟨keys, inChildren⟩ : Misfit).path = place.path →
              keys = place.keys ∧ inChildren = place.inChildren ∧
                (value.NestsDistinctly → other = held) := by
  refine ⟨fun place other hne hpath => hne (Misfit.path_inj.1 hpath), fun value place h => ?_⟩
  obtain ⟨held, hheld, hoffends⟩ := exists_of_ofJson_eq h
  refine ⟨held, hheld, hoffends, fun keys other inChildren hother _ hpath => ?_⟩
  obtain rfl := Misfit.path_inj.1 hpath
  exact ⟨rfl, rfl, fun hdistinct => eq_of_mem_places hdistinct hother hheld⟩

/-- A value with two places that are no blocks. The key of the second one is what the path to the
first one has between its quotes. -/
def quotedPath : Json :=
  .object [("children", .object
    [("a", .object [("children", .object [("b", .null)])]), ("a\"].children[\"b", .null)])]

theorem place_of_path_quotedPath :
    ofJson quotedPath = .error (.notABlock ⟨["a", "b"], false⟩) ∧
      (⟨["a\"].children[\"b"], false⟩ : Misfit).path ≠ (⟨["a", "b"], false⟩ : Misfit).path ∧
      ∃ held, (["a", "b"], held) ∈ quotedPath.places ∧ Offends held false ∧
        ∀ keys other inChildren, (keys, other) ∈ quotedPath.places → Offends other inChildren →
          (⟨keys, inChildren⟩ : Misfit).path = (⟨["a", "b"], false⟩ : Misfit).path →
            other = held := by
  have herror : ofJson quotedPath = .error (.notABlock ⟨["a", "b"], false⟩) := by rfl
  have hleaf : Json.null.NestsDistinctly :=
    nestsDistinctly_iff.2 ⟨List.nodup_nil, fun _ h => absurd h List.not_mem_nil⟩
  have hchild : (Json.object [("children", .object [("b", .null)])]).NestsDistinctly :=
    nestsDistinctly_iff.2 ⟨by decide, List.forall_mem_singleton.2 hleaf⟩
  have hdistinct : quotedPath.NestsDistinctly :=
    nestsDistinctly_iff.2 ⟨by decide,
      List.forall_mem_cons.2 ⟨hchild, List.forall_mem_singleton.2 hleaf⟩⟩
  obtain ⟨held, hheld, hoffends, hunique⟩ := place_of_path.2 _ _ herror
  exact ⟨herror, place_of_path.1 _ _ (by decide), held, hheld, hoffends,
    fun keys other inChildren hother hfault hpath =>
      (hunique keys other inChildren hother hfault hpath).2.2 hdistinct⟩

end Block

end StyleTree
