import ValidUsage.Diagnostic.Origin
import ValidUsage.Layout.Source
import ValidUsage.Strip.DeadCode

/-!
# Stripping for a build

A statement of valid usage is folded for a build and then freed of dead code. What is left is the
statement for that build; if nothing is left, the statement says nothing about it.
-/

namespace ValidUsage

/-- A statement of valid usage for a build. -/
structure Stripped where
  /-- The statement, if anything is left of it. -/
  block : Option Block
  /-- The requirements that are false in the build, as they were written. -/
  falsified : List Stmt

/-- The position that a warning about a statement gives. -/
def Stmt.reported : Stmt → Pos
  | expr _ value => value.pos
  | s => s.pos

namespace Stripped

/-- The warning for a requirement that is false in a build. -/
def warning (origin : Origin) (s : Stmt) : Diagnostic where
  id := Code.requireFalse.id
  severity := .warn
  message := "require() condition evaluates to False in this build.  " ++
    "This hurts VU readability, invert the VU logic instead."
  location := some (origin.locate s.reported)
  fragment := some (String.ofList s.source)

/-- The warnings about a statement for a build. -/
def warnings (x : Stripped) (origin : Origin) : List Diagnostic := x.falsified.map (warning origin)

end Stripped

namespace Block

/-- A statement of valid usage, stripped for a build. -/
def strip (b : Block) (build : Build) : Stripped :=
  let folded := b.fold build
  ⟨withoutDeadCode folded.stmts, folded.falsified⟩

/-- The warning that a statement of valid usage has dead code, if it has. -/
def deadCodeWarning? (b : Block) (origin : Origin) : Option Diagnostic :=
  if b.hasDeadCode then
    some {
      id := Code.deadCode.id
      severity := .warn
      message := "VU has dead code"
      location := some (origin.locate ⟨1, 1⟩) }
  else none

end Block
end ValidUsage
