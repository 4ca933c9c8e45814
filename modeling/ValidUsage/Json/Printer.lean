import ValidUsage.Json.Basic

/-!
# Writing JSON

A value is written on one line without blanks, or over several lines with two spaces a level. Of the
characters of a string, the quote, the backslash and the control characters are escaped.
-/

namespace ValidUsage.Json

/-- A digit of the alphabet `0` to `f`. -/
def hexDigit (n : Nat) : Char := (Nat.digitChar n)

/-- A character inside a string. -/
def escapeChar (c : Char) : List Char :=
  if c = '"' then ['\\', '"']
  else if c = '\\' then ['\\', '\\']
  else if c = '\n' then ['\\', 'n']
  else if c = '\r' then ['\\', 'r']
  else if c = '\t' then ['\\', 't']
  else if c = '\x08' then ['\\', 'b']
  else if c = '\x0c' then ['\\', 'f']
  else if c.toNat < 0x20 then
    ['\\', 'u', '0', '0', hexDigit (c.toNat / 16), hexDigit (c.toNat % 16)]
  else [c]

/-- A string between its quotes. -/
def quote (s : String) : List Char := '"' :: s.toList.flatMap escapeChar ++ ['"']

/-- A number. -/
def Number.write (n : Number) : List Char :=
  if n.whole then
    let ds := Nat.toDigits 10 n.digits
    if n.neg then '-' :: ds else ds
  else match Binary64.ofDecimal n.neg n.digits n.exp with
    | some x => (DecimalStyle.json.write x).toList
    | none => ['n', 'u', 'l', 'l']

mutual

/-- A value on one line. -/
def compress : Json → List Char
  | .null => ['n', 'u', 'l', 'l']
  | .bool true => ['t', 'r', 'u', 'e']
  | .bool false => ['f', 'a', 'l', 's', 'e']
  | .num n => n.write
  | .str s => quote s
  | .arr items => '[' :: compressItems items ++ [']']
  | .obj fields => '{' :: compressFields fields ++ ['}']

/-- The items of an array, with commas between. -/
def compressItems : List Json → List Char
  | [] => []
  | [j] => compress j
  | j :: js => compress j ++ ',' :: compressItems js

/-- The fields of an object, with commas between. -/
def compressFields : List (String × Json) → List Char
  | [] => []
  | [(k, j)] => quote k ++ ':' :: compress j
  | (k, j) :: fs => quote k ++ ':' :: compress j ++ ',' :: compressFields fs

end

/-- The start of a line at a level. -/
def newLine (level : Nat) : List Char := '\n' :: List.replicate (2 * level) ' '

mutual

/-- A value over several lines, standing at a level. -/
def prettyAt (level : Nat) : Json → List Char
  | .arr [] => ['[', ']']
  | .obj [] => ['{', '}']
  | .arr items => '[' :: prettyItems (level + 1) items ++ newLine level ++ [']']
  | .obj fields => '{' :: prettyFields (level + 1) fields ++ newLine level ++ ['}']
  | .null => ['n', 'u', 'l', 'l']
  | .bool true => ['t', 'r', 'u', 'e']
  | .bool false => ['f', 'a', 'l', 's', 'e']
  | .num n => n.write
  | .str s => quote s

/-- The items of an array, each on lines of its own. -/
def prettyItems (level : Nat) : List Json → List Char
  | [] => []
  | [j] => newLine level ++ prettyAt level j
  | j :: js => newLine level ++ prettyAt level j ++ ',' :: prettyItems level js

/-- The fields of an object, each on lines of its own. -/
def prettyFields (level : Nat) : List (String × Json) → List Char
  | [] => []
  | [(k, j)] => newLine level ++ quote k ++ ':' :: ' ' :: prettyAt level j
  | (k, j) :: fs =>
    newLine level ++ quote k ++ ':' :: ' ' :: prettyAt level j ++ ',' :: prettyFields level fs

end

/-- A value over several lines. -/
def pretty (j : Json) : String := String.ofList (prettyAt 0 j)

/-- A field put into its place in ascending order of names. -/
def insertField (f : String × Json) : List (String × Json) → List (String × Json)
  | [] => [f]
  | g :: gs => if f.1 < g.1 then f :: g :: gs else g :: insertField f gs

mutual

/-- The value with the fields of every object in ascending order of their names. -/
def sortFields : Json → Json
  | .arr items => .arr (sortItems items)
  | .obj fields => .obj (sortEntries fields)
  | j => j

/-- Every item sorted. -/
def sortItems : List Json → List Json
  | [] => []
  | j :: js => sortFields j :: sortItems js

/-- Every field sorted inside and put in order. -/
def sortEntries : List (String × Json) → List (String × Json)
  | [] => []
  | (k, j) :: fs => insertField (k, sortFields j) (sortEntries fs)

end

end ValidUsage.Json
