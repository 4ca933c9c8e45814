import ValidUsage.Number.Width
import ValidUsage.Text.Lines

/-!
# Byte offsets and lines

A line index turns byte offsets of a text into lines and columns, both counted from zero, and
locations, counted from one, back into byte offsets.
-/

namespace ValidUsage

/-- Where the lines of a text start. -/
structure LineIndex where
  /-- The byte offset of the start of each line, in ascending order; the first is zero. -/
  starts : List Nat
  /-- The length of the text in bytes. -/
  size : Nat
  deriving DecidableEq, Repr

namespace LineIndex

/-- The offsets just after the line feeds of a text that begins at an offset. -/
def startsAfter (offset : Nat) : List Char → List Nat
  | [] => []
  | c :: cs =>
    let next := offset + c.utf8Size
    if c = '\n' then next :: startsAfter next cs else startsAfter next cs

/-- The index of a text. -/
def ofText (s : List Char) : LineIndex := ⟨0 :: startsAfter 0 s, Text.byteLength s⟩

/-- The line that holds an offset, and the distance from its start. An offset past the end of the
text belongs to the last line. -/
def lineCol (ix : LineIndex) (offset : Nat) : Nat × Nat :=
  let line := (ix.starts.takeWhile (· ≤ offset)).length - 1
  (line, offset - ix.starts[line]?.getD 0)

/-- The offset of the start of a line. -/
def lineStart? (ix : LineIndex) (line : Nat) : Option Nat := ix.starts[line]?

/-- The offset of a location, at most the length of the text; none if its line does not exist. The
column is added to the start of the line before the sum is cut to the length of the text. -/
def offsetOf? (ix : LineIndex) (o : Overflow) (line column : Nat) : Except Overrun (Option Nat) :=
  if line = 0 then .ok none
  else match ix.lineStart? (line - 1) with
    | none => .ok none
    | some start => (o.add start (column - 1)).map fun sum => some (min sum ix.size)

end LineIndex
end ValidUsage
