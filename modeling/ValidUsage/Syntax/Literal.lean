import ValidUsage.Number.Width
import ValidUsage.Syntax.Tree

/-!
# Texts of literals

A string is written in single quotes with the escapes below, so that reading gives the same string
back (`unescape_escape`). A string that is read may be in quotes of either kind; a backslash before
any other character stands for itself.
-/

namespace ValidUsage.Literal

/-- A character inside of a string that is written. -/
def escapeChar (c : Char) : List Char :=
  if c = '\\' then ['\\', '\\']
  else if c = '\'' then ['\\', '\'']
  else if c = '\n' then ['\\', 'n']
  else if c = '\t' then ['\\', 't']
  else if c = '\r' then ['\\', 'r']
  else if c = '\x00' then ['\\', '0']
  else [c]

/-- The inside of a string that is written. -/
def escape (s : List Char) : List Char := s.flatMap escapeChar

/-- The text of a string. -/
def quote (s : String) : String := String.ofList ('\'' :: escape s.toList ++ ['\''])

/-- The character that a letter after a backslash stands for. -/
def unescapeChar? (c : Char) : Option Char :=
  if c = 'n' then some '\n'
  else if c = 't' then some '\t'
  else if c = 'r' then some '\r'
  else if c = '0' then some '\x00'
  else if c = '\\' ∨ c = '\'' ∨ c = '"' then some c
  else none

/-- The characters that the inside of a string stands for. -/
def unescape : List Char → List Char
  | [] => []
  | '\\' :: c :: r =>
    match unescapeChar? c with
    | some c' => c' :: unescape r
    | none => '\\' :: c :: unescape r
  | c :: r => c :: unescape r

/-- The characters that a quoted text stands for. -/
def unquote (s : List Char) : List Char := unescape (s.drop 1).dropLast

/-- A character that is not a backslash stands for itself. -/
theorem unescape_cons {c : Char} (h : c ≠ '\\') (r : List Char) :
    unescape (c :: r) = c :: unescape r := by
  rw [unescape.eq_def]
  split <;> simp_all

/-- An escaped character is read as itself. -/
theorem unescape_escapeChar_append (c : Char) (r : List Char) :
    unescape (escapeChar c ++ r) = c :: unescape r := by
  unfold escapeChar
  repeat' split
  all_goals first
    | exact unescape_cons (by assumption) r
    | simp_all [unescape, unescapeChar?]

/-- An escaped text is read as itself. -/
theorem unescape_escape (s : List Char) : unescape (escape s) = s := by
  induction s with
  | nil => rfl
  | cons c cs ih => rw [escape, List.flatMap_cons, unescape_escapeChar_append, ← escape, ih]

/-- The inside of a string that is written is the string. -/
theorem unquote_quote (s : String) : unquote (quote s).toList = s.toList := by
  have h : (quote s).toList = '\'' :: (escape s.toList ++ ['\'']) := by
    rw [quote, String.toList_ofList]
    rfl
  rw [unquote, h, List.drop_one, List.tail_cons, List.dropLast_concat, unescape_escape]

/-- The value of a digit. -/
def digitValue (c : Char) : Nat :=
  if c.isDigit then c.toNat - '0'.toNat else c.toNat - 'a'.toNat + 10

/-- The number that digits of a base write, if there is a digit and each is one of the base. -/
def ofDigits? (base : Nat) (ds : List Char) : Option Nat :=
  if ds.isEmpty then none
  else ds.foldlM (fun n c => if digitValue c < base then some (n * base + digitValue c) else none) 0

/-- A number that is too large for a whole literal is refused. -/
def whole? (base : Nat) (ds : List Char) : Option Constant :=
  (ofDigits? base ds).bind fun n => if n < limit64 then some (.int n) else none

/-- The number that a decimal text with a fraction or an exponent writes: digits on at least one
side of the point, and at least one digit in the exponent. -/
def float? (s : List Char) : Option Constant :=
  let whole := s.takeWhile Char.isDigit
  let s := s.dropWhile Char.isDigit
  let (fraction, s) := match s with
    | '.' :: r => (r.takeWhile Char.isDigit, r.dropWhile Char.isDigit)
    | _ => ([], s)
  let mantissa := whole ++ fraction
  let scaled (e : Int) : Option Constant := do
    let n ← ofDigits? 10 mantissa
    return .float (← Binary64.ofDecimal false n (e - fraction.length))
  match s with
  | [] => scaled 0
  | 'e' :: '-' :: ds => do scaled (-(← ofDigits? 10 ds))
  | 'e' :: '+' :: ds => do scaled (← ofDigits? 10 ds)
  | 'e' :: ds => do scaled (← ofDigits? 10 ds)
  | _ => none

/-- The value of the text of a number. Underscores and the case of letters do not matter. -/
def number? (s : List Char) : Option Constant :=
  let s := (s.filter (· ≠ '_')).map Char.toLower
  match s with
  | '0' :: 'x' :: ds => whole? 16 ds
  | '0' :: 'o' :: ds => whole? 8 ds
  | '0' :: 'b' :: ds => whole? 2 ds
  | _ => if s.contains '.' || s.contains 'e' then float? s else whole? 10 s

end ValidUsage.Literal
