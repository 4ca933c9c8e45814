import ValidUsage.Diagnostic.Basic
import ValidUsage.Number.Width
import ValidUsage.Syntax.Tree

/-!
# Where a statement comes from

Positions in a tree count from the first line of the text of the statement, after its indentation
was removed; an origin turns them into locations in the document.
-/

namespace ValidUsage

/-- The place of the text of a statement in a document. -/
structure Origin where
  /-- The document. -/
  file : String
  /-- The line of the document on which the text starts. -/
  line : Nat
  /-- The width of the indentation that was removed. -/
  indent : Nat
  deriving DecidableEq, Repr

namespace Origin

/-- The location of a position. A position on no line counts as one on the first line. Lines and
columns of locations have 64 bits and wrap around; a process that breaks off at such a sum has no
location to show (`Origin.fits`). -/
def locate (o : Origin) (p : Pos) : Location :=
  ⟨o.file, (o.line + max p.line 1 - 1) % limit64, (p.col + o.indent) % limit64⟩

/-- Whether the sums for the location of a position have 64 bits. -/
def fits (o : Origin) (p : Pos) : Bool :=
  o.line + max p.line 1 < limit64 && p.col + o.indent < limit64

end Origin

end ValidUsage
