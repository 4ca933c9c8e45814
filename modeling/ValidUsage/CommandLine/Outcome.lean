import ValidUsage.Diagnostic.Basic
import ValidUsage.Session.Basic
import ValidUsage.Text.LineIndex

/-!
# Outcomes of commands

A command ends with an exit status and what it printed. The status is zero if all went well, one if
something was found or failed, and two if the arguments are refused. Findings are shown one below
the other, and a coloured line behind them counts them.
-/

namespace ValidUsage.CommandLine

/-- What a command comes to. -/
structure Outcome where
  /-- The exit status. -/
  code : Nat
  /-- What is printed as the result. -/
  out : List Char := []
  /-- What is printed besides. -/
  err : List Char := []
  deriving DecidableEq, Repr

/-- A text on a line of its own. -/
def line (s : String) : List Char := s.toList ++ ['\n']

/-- Why a command fails. -/
structure Failure where
  /-- What failed. -/
  message : String
  /-- What is behind it, each behind the one before. -/
  causes : List String
  deriving DecidableEq, Repr

namespace Failure

/-- The causes as they are shown. Several are numbered. -/
def causeLines : List String → List String
  | [cause] => ["    " ++ cause]
  | causes => causes.mapIdx fun i cause => "    " ++ toString i ++ ": " ++ cause

/-- The text about a failure. -/
def text (f : Failure) : List Char :=
  let head := line ("Error: " ++ f.message)
  if f.causes.isEmpty then head
  else head ++ line "" ++ line "Caused by:" ++ (causeLines f.causes).flatMap line

/-- The failure of a session. -/
def ofSession (f : Session.Failure) : Failure := ⟨f.message, f.causes⟩

end Failure

/-- How a command ends early. -/
inductive Ending where
  /-- It fails. -/
  | failed (f : Failure)
  /-- It breaks down. -/
  | broken
  deriving DecidableEq, Repr

/-- The outcome of a command that ends early. -/
def Ending.outcome (out err : List Char) : Ending → Outcome
  | failed f => ⟨1, out, err ++ f.text⟩
  | broken => ⟨101, out, err⟩

/-- The exit status behind findings. -/
def statusOf (ds : List Diagnostic) : Nat := if hasErrors ds then 1 else 0

/-- A text in a colour of the terminal. -/
def coloured (colour : Nat) (s : String) : String :=
  "\x1b[" ++ toString colour ++ "m" ++ s ++ "\x1b[0m"

/-- A number of things. -/
def counted (n : Nat) (thing : String) : String :=
  toString n ++ " " ++ thing ++ if n = 1 then "" else "s"

/-- The line that counts findings, if there are any. -/
def summary (ds : List Diagnostic) : List Char :=
  let errors := (ds.filter Diagnostic.isError).length
  let warnings := ds.length - errors
  let parts := (if errors = 0 then [] else [coloured 31 (counted errors "error")]) ++
    (if warnings = 0 then [] else [coloured 33 (counted warnings "warning")])
  if ds.isEmpty then [] else line (", ".intercalate parts)

/-- A finding with its details and the explanation of its code. -/
def findingText (d : Diagnostic) : List Char :=
  let note := match d.context with
    | none => []
    | some t => line ("  = note: " ++ ", ".intercalate (t.entries.map fun e => e.1 ++ "=" ++ e.2))
  let help := match d.explain? with
    | none => []
    | some text => line ("  = help: " ++ text)
  line d.display ++ note ++ help

/-- Whether a finding in a file points inside of a character. Findings are located in the text of
the file, so that no sum is too large for its width. -/
def splitsChar (file : String) (input : List Char) (d : Diagnostic) : Bool :=
  d.location.any fun l => l.file == file &&
    match (LineIndex.ofText input).offsetOf? .wraps l.line l.column with
    | .ok (some offset) => (Text.dropBytes? offset input).isNone
    | _ => false

/-- The findings in a file and their number. A finding that points inside of a character cannot be
shown: what comes before it is given then. -/
def findingsText (file : String) (input : List Char) (ds : List Diagnostic) :
    Except (List Char) (List Char) :=
  let shown := ds.takeWhile (!splitsChar file input ·)
  let text := shown.flatMap findingText
  if ds.any (splitsChar file input) then .error text else .ok (text ++ summary ds)

end ValidUsage.CommandLine
