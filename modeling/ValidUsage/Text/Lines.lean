/-!
# Lines and widths

A line ends at a line feed; a carriage return just before the line feed belongs to the line end.
Indentation is measured in bytes of UTF-8, columns of a token in characters.
-/

namespace ValidUsage.Text

/-- The lines of a text, without their ends. A final line feed does not open another line. -/
def lines (s : List Char) : List (List Char) :=
  go s []
where
  /-- Walk the text with the current line collected in reverse. -/
  go : List Char → List Char → List (List Char)
    | [], acc => if acc.isEmpty then [] else [acc.reverse]
    | c :: cs, acc => if c = '\n' then dropReturn acc :: go cs [] else go cs (c :: acc)
  /-- The line collected in reverse, without the carriage return that ends it. -/
  dropReturn : List Char → List Char
    | '\r' :: acc => acc.reverse
    | acc => acc.reverse

/-- A text is shorter without its first character. -/
theorem length_lt_cons (c : Char) (s : List Char) : s.length < (c :: s).length :=
  Nat.lt_succ_self s.length

/-- What is shorter than a text is shorter than the text behind another character. -/
theorem lt_length_cons {r s : List Char} (c : Char) (h : r.length < s.length) :
    r.length < (c :: s).length :=
  Nat.lt_succ_of_lt h

/-- The number of bytes of a text in UTF-8. -/
def byteLength : List Char → Nat
  | [] => 0
  | c :: cs => c.utf8Size + byteLength cs

/-- The text from byte `n` on; nothing if byte `n` is past the end or inside a character. -/
def dropBytes? : Nat → List Char → Option (List Char)
  | 0, s => some s
  | _ + 1, [] => none
  | n + 1, c :: cs => if c.utf8Size ≤ n + 1 then dropBytes? (n + 1 - c.utf8Size) cs else none
termination_by _ s => s.length

/-- A letter of the ASCII alphabet. -/
def isLetter (c : Char) : Bool := c.isAlpha

/-- A character that may continue a name: an ASCII letter, an ASCII digit or an underscore. -/
def isNameChar (c : Char) : Bool := c.isAlphanum || c == '_'

/-- A character that may open a name: an ASCII letter or an underscore. -/
def isNameStart (c : Char) : Bool := c.isAlpha || c == '_'

end ValidUsage.Text
