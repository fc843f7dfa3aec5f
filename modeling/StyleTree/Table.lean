namespace StyleTree

/-- Values under keys, in order. -/
abbrev Table (α : Type) :=
  List (String × α)

namespace Table

variable {α : Type}

/-- The keys in order. -/
def keys (table : Table α) : List String :=
  table.map Prod.fst

/-- The value stored under a key. -/
def find? (table : Table α) (key : String) : Option α :=
  table.lookup key

/-- Whether anything is stored under a key. -/
def contains (table : Table α) (key : String) : Bool :=
  (table.find? key).isSome

/-- The table with `value` stored under `key`. -/
def insert (key : String) (value : α) : Table α → Table α
  | [] => [(key, value)]
  | (other, kept) :: rest =>
    if other = key then (key, value) :: rest else (other, kept) :: insert key value rest

/-- Whether two tables hold the same values under the same keys. Tables whose keys differ from
each other agree in this sense exactly if each holds the pairs of the other. -/
def same (agree : α → α → Bool) (left right : Table α) : Bool :=
  left.length == right.length &&
    left.all fun (key, value) => (right.find? key).any (agree value)

@[simp]
theorem find?_nil (key : String) : find? ([] : Table α) key = none :=
  rfl

theorem find?_cons (table : Table α) (key other : String) (value : α) :
    find? ((other, value) :: table) key = if key = other then some value else table.find? key := by
  by_cases h : key = other
  · simp [find?, h]
  · simp [find?, List.lookup_cons, h, beq_false_of_ne h]

end Table

end StyleTree
