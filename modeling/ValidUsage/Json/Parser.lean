import ValidUsage.Json.Basic
import ValidUsage.Text.Lines

/-!
# Reading JSON

A text is read as one value with blanks around it. Each reader returns what it read together with
the characters that are left, and a proof that these are fewer; so reading ends on every text.
-/

namespace ValidUsage.Json

/-- A value that was read, and the characters after it. -/
structure Read (α : Type) (s : List Char) where
  /-- What was read. -/
  value : α
  /-- The characters after it. -/
  rest : List Char
  /-- Reading takes at least one character. -/
  shorter : rest.length < s.length

/-- The text without leading blanks: spaces, tabs, line feeds and carriage returns. -/
def skipBlanks (s : List Char) : List Char :=
  s.dropWhile fun c => c == ' ' || c == '\t' || c == '\n' || c == '\r'

/-- Skipping blanks does not lengthen a text. -/
theorem length_skipBlanks (s : List Char) : (skipBlanks s).length ≤ s.length :=
  (List.dropWhile_suffix _).length_le

/-- The value of a digit of the alphabet `0` to `f`, of either case. -/
def hexValue? (c : Char) : Option Nat :=
  if '0' ≤ c ∧ c ≤ '9' then some (c.toNat - '0'.toNat)
  else if 'a' ≤ c ∧ c ≤ 'f' then some (c.toNat - 'a'.toNat + 10)
  else if 'A' ≤ c ∧ c ≤ 'F' then some (c.toNat - 'A'.toNat + 10)
  else none

/-- The number that four such digits write. -/
def hex4? (a b c d : Char) : Option Nat := do
  return (← hexValue? a) * 4096 + (← hexValue? b) * 256 + (← hexValue? c) * 16 + (← hexValue? d)

/-- Whether a code unit opens a pair. -/
def isHighSurrogate (n : Nat) : Bool := 0xD800 ≤ n && n < 0xDC00

/-- Whether a code unit closes a pair. -/
def isLowSurrogate (n : Nat) : Bool := 0xDC00 ≤ n && n < 0xE000

/-- The character that a letter after a backslash stands for. -/
def escaped? (c : Char) : Option Char :=
  if c = 'n' then some '\n'
  else if c = 't' then some '\t'
  else if c = 'r' then some '\r'
  else if c = 'b' then some '\x08'
  else if c = 'f' then some '\x0c'
  else if c = '"' ∨ c = '\\' ∨ c = '/' then some c
  else none

/-- The characters of a string up to its closing quote. A pair of surrogate escapes is one
character; a surrogate that stands alone is refused, and so is a control character. -/
def readChars : (s : List Char) → Option (Read (List Char) s)
  | '"' :: r => some ⟨[], r, Text.length_lt_cons '"' r⟩
  | '\\' :: 'u' :: a :: b :: c :: d :: r => do
    let n ← hex4? a b c d
    if isHighSurrogate n then
      match hr : r with
      | '\\' :: 'u' :: a :: b :: c :: d :: r' =>
        let m ← hex4? a b c d
        if isLowSurrogate m then
          let ⟨cs, r'', h⟩ ← readChars r'
          return ⟨Char.ofNat (0x10000 + (n - 0xD800) * 0x400 + (m - 0xDC00)) :: cs, r'',
            by rw [hr]; exact Nat.lt_add_right 12 h⟩
        else none
      | _ => none
    else if isLowSurrogate n then none
    else
      let ⟨cs, r', h⟩ ← readChars r
      return ⟨Char.ofNat n :: cs, r', Nat.lt_add_right 6 h⟩
  | '\\' :: e :: r => do
    let c ← escaped? e
    let ⟨cs, r', h⟩ ← readChars r
    return ⟨c :: cs, r', Text.lt_length_cons '\\' (Text.lt_length_cons e h)⟩
  | c :: r =>
    if c.toNat < 0x20 then none
    else do
      let ⟨cs, r', h⟩ ← readChars r
      return ⟨c :: cs, r', Text.lt_length_cons c h⟩
  | [] => none
termination_by s => s.length
decreasing_by all_goals (simp only [List.length_cons]; omega)

/-- The leading decimal digits of a text, and the rest. -/
def spanDigits (s : List Char) : List Char × List Char := s.span Char.isDigit

/-- The number that decimal digits write. -/
def digitsValue (ds : List Char) : Nat := ds.foldl (fun n c => 10 * n + (c.toNat - '0'.toNat)) 0

/-- The whole part of a number: one zero, or digits that do not open with a zero. -/
def wholePart? (s : List Char) : Option (List Char × List Char) :=
  match s with
  | '0' :: r => match r with
    | c :: _ => if c.isDigit then none else some (['0'], r)
    | [] => some (['0'], r)
  | _ => match spanDigits s with
    | ([], _) => none
    | (ds, r) => some (ds, r)

/-- The fraction of a number, if a point opens one. -/
def fraction? (s : List Char) : Option (List Char × List Char) :=
  match s with
  | '.' :: r => match spanDigits r with
    | ([], _) => none
    | (ds, r') => some (ds, r')
  | _ => some ([], s)

/-- The exponent of a number, if it has one. -/
def exponent? (s : List Char) : Option (Option Int × List Char) :=
  let signed (neg : Bool) (r : List Char) : Option (Option Int × List Char) :=
    match spanDigits r with
    | ([], _) => none
    | (ds, r') => some (some (if neg then -(digitsValue ds : Int) else digitsValue ds), r')
  match s with
  | c :: r =>
    if c = 'e' ∨ c = 'E' then
      match r with
      | '+' :: r' => signed false r'
      | '-' :: r' => signed true r'
      | _ => signed false r
    else some (none, s)
  | [] => some (none, s)

/-- A number, and the text after it. -/
def readNumber (s : List Char) : Option (Number × List Char) := do
  let (neg, s) := match s with
    | '-' :: r => (true, r)
    | _ => (false, s)
  let (ds, s) ← wholePart? s
  let (fs, s) ← fraction? s
  let (e, s) ← exponent? s
  return (⟨neg, digitsValue (ds ++ fs), e.getD 0 - fs.length, fs.isEmpty && e.isNone⟩, s)

mutual

/-- A value, with the blanks before it. -/
def readValue (s : List Char) : Option (Read Json s) :=
  have hs := length_skipBlanks s
  match h : skipBlanks s with
  | 'n' :: 'u' :: 'l' :: 'l' :: r => some ⟨.null, r, by simp [h] at hs; omega⟩
  | 't' :: 'r' :: 'u' :: 'e' :: r => some ⟨.bool true, r, by simp [h] at hs; omega⟩
  | 'f' :: 'a' :: 'l' :: 's' :: 'e' :: r => some ⟨.bool false, r, by simp [h] at hs; omega⟩
  | '"' :: r => do
    let ⟨cs, r', hr⟩ ← readChars r
    return ⟨.str (String.ofList cs), r', by simp [h] at hs; omega⟩
  | '[' :: r =>
    have hb := length_skipBlanks r
    match hr : skipBlanks r with
    | ']' :: r' => some ⟨.arr [], r', by simp [h] at hs; simp [hr] at hb; omega⟩
    | _ => do
      let ⟨items, r', hi⟩ ← readItems r
      return ⟨.arr items, r', by simp [h] at hs; omega⟩
  | '{' :: r =>
    have hb := length_skipBlanks r
    match hr : skipBlanks r with
    | '}' :: r' => some ⟨.obj [], r', by simp [h] at hs; simp [hr] at hb; omega⟩
    | _ => do
      let ⟨fields, r', hf⟩ ← readFields r
      return ⟨.obj fields, r', by simp [h] at hs; omega⟩
  | _ => do
    let (n, r) ← readNumber (skipBlanks s)
    if hr : r.length < s.length then return ⟨.num n, r, hr⟩ else none
termination_by (s.length, 0)
decreasing_by all_goals simp [h] at hs; first | (apply Prod.Lex.left; omega)

/-- The items of an array up to its closing bracket. -/
def readItems (s : List Char) : Option (Read (List Json) s) := do
  let ⟨j, r, hj⟩ ← readValue s
  have hb := length_skipBlanks r
  match h : skipBlanks r with
  | ',' :: r' =>
    let ⟨js, r'', hi⟩ ← readItems r'
    return ⟨j :: js, r'', by simp [h] at hb; omega⟩
  | ']' :: r' => return ⟨[j], r', by simp [h] at hb; omega⟩
  | _ => none
termination_by (s.length, 1)
decreasing_by
  · apply Prod.Lex.right; omega
  · simp [h] at hb; apply Prod.Lex.left; omega

/-- The fields of an object up to its closing brace. -/
def readFields (s : List Char) : Option (Read (List (String × Json)) s) :=
  have hs := length_skipBlanks s
  match h : skipBlanks s with
  | '"' :: r => do
    let ⟨k, r₁, h₁⟩ ← readChars r
    have hb₁ := length_skipBlanks r₁
    match hc : skipBlanks r₁ with
    | ':' :: r₂ =>
      let ⟨j, r₃, h₃⟩ ← readValue r₂
      have hb₃ := length_skipBlanks r₃
      match he : skipBlanks r₃ with
      | ',' :: r₄ =>
        let ⟨fs, r₅, h₅⟩ ← readFields r₄
        return ⟨(String.ofList k, j) :: fs, r₅, by
          simp [h] at hs; simp [hc] at hb₁; simp [he] at hb₃; omega⟩
      | '}' :: r₄ => return ⟨[(String.ofList k, j)], r₄, by
          simp [h] at hs; simp [hc] at hb₁; simp [he] at hb₃; omega⟩
      | _ => none
    | _ => none
  | _ => none
termination_by (s.length, 1)
decreasing_by
  · simp [h] at hs; simp [hc] at hb₁; apply Prod.Lex.left; omega
  · simp [h] at hs; simp [hc] at hb₁; simp [he] at hb₃; apply Prod.Lex.left; omega

end

/-- The value that a whole text writes. -/
def parse? (s : String) : Option Json := do
  let ⟨j, r, _⟩ ← readValue s.toList
  if (skipBlanks r).isEmpty then some j else none

end ValidUsage.Json
