import ValidUsage.Text.Unseen

/-!
# Quoted texts

A text in a message stands in double quotes. Quotes and backslashes are escaped, and so is every
character that does not show.
-/

namespace ValidUsage.Text

/-- A character within quotes. -/
def quotedChar (c : Char) : List Char :=
  if c = '"' ∨ c = '\\' then ['\\', c]
  else if c = '\t' then ['\\', 't']
  else if c = '\r' then ['\\', 'r']
  else if c = '\n' then ['\\', 'n']
  else if c = '\x00' then ['\\', '0']
  else if isUnseen c then ['\\', 'u', '\x7b'] ++ Nat.toDigits 16 c.toNat ++ ['\x7d']
  else [c]

/-- A text within quotes. -/
def quoted (s : List Char) : String := String.ofList ('"' :: s.flatMap quotedChar ++ ['"'])

end ValidUsage.Text
