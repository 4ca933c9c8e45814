/-!
# White space

The characters that count as blank around a statement are those with the Unicode property
`White_Space`. Trimming removes them at one end or at both, and nothing else.

Text that is scanned or laid out is a `List Char` throughout the library; a `String` holds a name,
the spelling of a token or a message.
-/

namespace ValidUsage.Text

/-- The code points with the property `White_Space`, as closed ranges in ascending order. -/
def blankRanges : List (Nat × Nat) :=
  [(0x09, 0x0D), (0x20, 0x20), (0x85, 0x85), (0xA0, 0xA0), (0x1680, 0x1680), (0x2000, 0x200A),
   (0x2028, 0x2029), (0x202F, 0x202F), (0x205F, 0x205F), (0x3000, 0x3000)]

/-- A character is blank when its code point lies in one of `blankRanges`. -/
def isBlank (c : Char) : Bool :=
  blankRanges.any fun (lo, hi) => lo ≤ c.toNat && c.toNat ≤ hi

/-- The text without its leading blanks. -/
def trimStart (s : List Char) : List Char := s.dropWhile isBlank

/-- The text without its trailing blanks. -/
def trimEnd (s : List Char) : List Char := (s.reverse.dropWhile isBlank).reverse

/-- The text without blanks at either end. -/
def trim (s : List Char) : List Char := trimEnd (trimStart s)

/-- The leading blanks of a text. -/
def lead (s : List Char) : List Char := s.takeWhile isBlank

/-- A text is its leading blanks followed by the rest. -/
theorem lead_append_trimStart (s : List Char) : lead s ++ trimStart s = s :=
  List.takeWhile_append_dropWhile

/-- The maximal runs of characters that are not blank, in order. -/
def words (s : List Char) : List (List Char) :=
  go s []
where
  /-- Collect the current run in reverse while walking the text. -/
  go : List Char → List Char → List (List Char)
    | [], run => if run.isEmpty then [] else [run.reverse]
    | c :: cs, run =>
      if isBlank c then if run.isEmpty then go cs [] else run.reverse :: go cs []
      else go cs (c :: run)

end ValidUsage.Text
