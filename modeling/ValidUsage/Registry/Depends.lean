/-!
# Dependencies

A dependency names versions and extensions: `+` joins requirements, `,` separates alternatives, and
`+` binds tighter; parentheses group. It is read into its alternatives, each a list of names that
are all required. Reading accepts every text: a missing name requires nothing, a missing parenthesis
is added, and what cannot be read at the end is ignored.
-/

namespace ValidUsage.Depends

/-- White space of the ASCII range, without the vertical tab. -/
def isSpace (c : Char) : Bool :=
  c == ' ' || c == '\t' || c == '\n' || c == '\r' || c == '\x0c'

/-- A character that ends a name. -/
def endsName (c : Char) : Bool :=
  c == '+' || c == ',' || c == '(' || c == ')' || c == ' ' || c == '\t'

/-- The text after a character, if that is next after white space. -/
def eat? (c : Char) (s : List Char) : Option { r : List Char // r.length < s.length } :=
  have h := (List.dropWhile_suffix (l := s) isSpace).length_le
  match hs : s.dropWhile isSpace with
  | [] => none
  | c' :: r => if c' = c then some ⟨r, by rw [hs] at h; exact h⟩ else none

/-- Alternatives that were read, and the text after them. -/
structure Read (s : List Char) where
  /-- The alternatives. -/
  alternatives : List (List String)
  /-- The text after them. -/
  rest : List Char
  /-- Nothing is put back. -/
  bound : rest.length ≤ s.length

/-- Every requirement of one list of alternatives joined with every one of another. -/
def product (l r : List (List String)) : List (List String) :=
  l.flatMap fun a => r.map fun b => a ++ b

mutual

/-- Alternatives with commas between. -/
def alternatives (s : List Char) : Read s :=
  let ⟨d, r, h⟩ := conjunction s
  match eat? ',' r with
  | none => ⟨d, r, h⟩
  | some ⟨r₁, h₁⟩ =>
    let ⟨d', r₂, h₂⟩ := alternatives r₁
    ⟨d ++ d', r₂, by omega⟩
termination_by 3 * s.length + 2

/-- Requirements with plus signs between. -/
def conjunction (s : List Char) : Read s :=
  let ⟨d, r, h⟩ := requirement s
  match eat? '+' r with
  | none => ⟨d, r, h⟩
  | some ⟨r₁, h₁⟩ =>
    let ⟨d', r₂, h₂⟩ := conjunction r₁
    ⟨product d d', r₂, by omega⟩
termination_by 3 * s.length + 1

/-- A name, or alternatives in parentheses. -/
def requirement (s : List Char) : Read s :=
  match eat? '(' s with
  | some ⟨r, h⟩ =>
    let ⟨d, r₁, h₁⟩ := alternatives r
    match eat? ')' r₁ with
    | some ⟨r₂, h₂⟩ => ⟨d, r₂, by omega⟩
    | none => ⟨d, r₁, by omega⟩
  | none =>
    let t := s.dropWhile isSpace
    let name := t.takeWhile (!endsName ·)
    ⟨if name.isEmpty then [[]] else [[String.ofList name]], t.dropWhile (!endsName ·), by
      have h₁ := (List.dropWhile_suffix (l := s) isSpace).length_le
      have h₂ := (List.dropWhile_suffix (l := t) (!endsName ·)).length_le
      exact Nat.le_trans h₂ h₁⟩
termination_by 3 * s.length

end

/-- The alternatives of a dependency. -/
def ofText (s : List Char) : List (List String) := (alternatives s).alternatives

end ValidUsage.Depends
