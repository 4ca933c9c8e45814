import ValidUsage.Paragraph.Comment

/-!
# The text of a statement in its paragraph

A codified statement is a bullet paragraph whose first line is the tag, or follows an anchor. Before
its text is read the bullet and the common indentation are removed, and comments are kept as calls.
-/

namespace ValidUsage.Paragraph

/-- The line that marks a codified statement. -/
def tag : List Char := "codified-vu".toList

/-- What a bullet is. -/
def bullet : List Char := ['*', ' ']

/-- A line with its leading bullet replaced by blanks, as many as the bullet and the bytes of its
indentation. -/
def unbullet (line : List Char) : List Char :=
  match Text.stripPrefix? bullet (Text.trimStart line) with
  | some rest => List.replicate (Text.byteLength (Text.lead line) + 2) ' ' ++ rest
  | none => line

/-- A bullet becomes two spaces, and the blanks in front of it as many as they have bytes. -/
theorem unbullet_of_bullet {line rest : List Char} (h : Text.trimStart line = bullet ++ rest) :
    unbullet line = List.replicate (Text.byteLength (Text.lead line) + 2) ' ' ++ rest := by
  rw [unbullet, h, Text.stripPrefix?_append]

/-- A line without a bullet stays. -/
theorem unbullet_of_not {line : List Char} (h : ¬bullet <+: Text.trimStart line) :
    unbullet line = line := by
  rw [unbullet, Text.stripPrefix?_eq_none h]

/-- A text that starts with another character starts with no bullet. -/
theorem not_startsWith_bullet {c : Char} (hc : c ≠ '*') (s : List Char) : ¬bullet <+: c :: s := by
  rintro ⟨r, hr⟩
  exact hc (List.cons.inj hr).1.symm

/-- Whether a line is the tag, with or without a bullet. -/
def isTag (line : List Char) : Bool :=
  let line := Text.trim line
  Text.trim ((Text.stripPrefix? bullet line).getD line) == tag

/-- Whether a first line begins like a statement and not like prose: with the word of a compound
statement, with a requirement, or with an assignment. -/
def looksCodified (line : List Char) : Bool :=
  let line := Text.trimStart (unbullet line)
  let opens (s : String) : Bool := s.toList.isPrefixOf line
  let isTarget (c : Char) : Bool := Text.isNameChar c || c == '.'
  let after := Text.trimStart (line.dropWhile isTarget)
  opens "if " || opens "for " || opens "require(" ||
    (line.head?.any isTarget && ['='].isPrefixOf after && !(['=', '='].isPrefixOf after))

/-- The text of a statement. -/
structure Prepared where
  /-- The text, with its comments kept. -/
  text : List Char
  /-- The width of the indentation that was removed. -/
  indent : Nat
  deriving DecidableEq, Repr

/-- The lines of a paragraph without the bullet of the first one and without trailing blanks. -/
def unbulleted : List (List Char) → List (List Char)
  | [] => []
  | line :: lines => unbullet (Text.trimEnd line) :: lines.map Text.trimEnd

/-- The least indentation of the lines that are not blank; zero if all are. -/
def commonIndent (lines : List (List Char)) : Nat :=
  let widths := (lines.filter fun l => !(Text.trim l).isEmpty).map fun l =>
    Text.byteLength (Text.lead l)
  widths.min?.getD 0

/-- The lines of a paragraph made ready for reading. An indentation that ends inside of a character
leaves nothing of its line. -/
def prepare (lines : List (List Char)) : Prepared :=
  let lines := unbulleted lines
  let indent := commonIndent lines
  let dedented := lines.map fun l => (Text.dropBytes? indent l).getD []
  ⟨keepComments (Text.join ['\n'] dedented), indent⟩

end ValidUsage.Paragraph
