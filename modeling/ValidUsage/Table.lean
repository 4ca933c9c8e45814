/-!
# Tables and sets of names

A table holds values under names in ascending order of the names, at most one under each; a set of
names is an ascending list. Inserting keeps both in order.
-/

namespace ValidUsage

/-- Values under names, in ascending order of the names. -/
structure Table (α : Type) where
  /-- The names with their values. -/
  entries : List (String × α)
  deriving DecidableEq, Repr

namespace Table

variable {α : Type}

/-- The table without entries. -/
def empty : Table α := ⟨[]⟩

/-- The value under a name. -/
def get? (t : Table α) (name : String) : Option α :=
  (t.entries.find? (·.1 == name)).map (·.2)

/-- Whether there is a value under a name. -/
def contains (t : Table α) (name : String) : Bool := (t.get? name).isSome

/-- An entry put at its place among others; it replaces one of the same name. -/
def insertEntry (name : String) (a : α) : List (String × α) → List (String × α)
  | [] => [(name, a)]
  | e :: es =>
    if name = e.1 then (name, a) :: es
    else if name < e.1 then (name, a) :: e :: es
    else e :: insertEntry name a es

/-- The table with a value under a name, in place of the one it had. -/
def insert (t : Table α) (name : String) (a : α) : Table α := ⟨insertEntry name a t.entries⟩

/-- A name has the value that was inserted for it, and the others keep theirs. -/
theorem get?_insert (t : Table α) (name x : String) (a : α) :
    (t.insert name a).get? x = if x = name then some a else t.get? x := by
  obtain ⟨entries⟩ := t
  simp only [get?, insert]
  induction entries with
  | nil =>
    by_cases hx : x = name
    · simp [insertEntry, hx]
    · simp [insertEntry, hx, Ne.symm hx]
  | cons e es ih =>
    simp only [insertEntry]
    by_cases hn : name = e.1
    · rw [if_pos hn]
      by_cases hx : x = name
      · simp [hx]
      · simp [hx, Ne.symm hx, ← hn]
    · rw [if_neg hn]
      by_cases hx : x = name
      · split
        · simp [hx]
        · simpa [hx, Ne.symm hn] using ih
      · split
        · simp [Ne.symm hx]
        · by_cases he : e.1 = x
          · simp [he]
          · simpa [he, hx] using ih

/-- The table of a list of entries; the last one of a name counts. -/
def ofList (entries : List (String × α)) : Table α :=
  entries.foldl (fun t e => t.insert e.1 e.2) empty

/-- The names, in ascending order. -/
def names (t : Table α) : List String := t.entries.map (·.1)

/-- The table with every value replaced. -/
def map {β : Type} (f : α → β) (t : Table α) : Table β := ⟨t.entries.map fun e => (e.1, f e.2)⟩

end Table

namespace NameSet

/-- The set with one more name. -/
def insert (name : String) : List String → List String
  | [] => [name]
  | x :: xs =>
    if name = x then x :: xs
    else if name < x then name :: x :: xs
    else x :: insert name xs

/-- The set with more names. -/
def insertAll (set names : List String) : List String := names.foldl (fun s n => insert n s) set

/-- The set of the names of a list. -/
def ofList (names : List String) : List String := insertAll [] names

/-- A set has exactly the names that it was given. -/
theorem mem_insert {x name : String} {set : List String} :
    x ∈ insert name set ↔ x = name ∨ x ∈ set := by
  induction set with
  | nil => simp [insert]
  | cons y ys ih =>
    simp only [insert]
    split
    · next h => subst h; simp
    · split
      · simp
      · simp only [List.mem_cons, ih]
        constructor
        · rintro (h | h | h) <;> simp [h]
        · rintro (h | h | h) <;> simp [h]

end NameSet
end ValidUsage
