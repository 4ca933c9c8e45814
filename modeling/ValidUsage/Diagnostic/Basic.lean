import ValidUsage.Diagnostic.Code
import ValidUsage.Json.Record
import ValidUsage.Number.Width

/-!
# Diagnostics

A diagnostic reports one finding: a code, a severity and a message, and where they are known the
place in the document, the text at fault and named details.
-/

namespace ValidUsage

/-- How grave a finding is. -/
inductive Severity where
  /-- The statement is dropped from the build. -/
  | error
  /-- The statement is kept but should be written differently. -/
  | warn
  deriving DecidableEq, Repr

namespace Severity

/-- The word for a severity. -/
def word : Severity → String
  | .error => "error"
  | .warn => "warn"

/-- The severity of a word. -/
def ofWord? : String → Option Severity
  | "error" => some .error
  | "warn" => some .warn
  | _ => none

end Severity

/-- A place in a document. -/
structure Location where
  /-- The document. -/
  file : String
  /-- The line, counted from one. -/
  line : Nat
  /-- The column within the line, counted from one. -/
  column : Nat
  deriving DecidableEq, Repr

namespace Location

/-- A location as it is shown. -/
def display (l : Location) : String := l.file ++ ":" ++ toString l.line ++ ":" ++ toString l.column

/-- A location in JSON. -/
def toJson (l : Location) : Json :=
  .obj [("file", .str l.file), ("line", .nat l.line), ("column", .nat l.column)]

/-- The location that a JSON value describes. -/
def ofJson? (j : Json) : Option Location := do
  match ← j.record? [.required "file", .required "line", .required "column"] with
  | [file, line, column] =>
    return ⟨← Json.given Json.str? file, ← Json.given (Json.natBelow? limit64) line,
      ← Json.given (Json.natBelow? limit64) column⟩
  | _ => none

end Location

/-- A finding. -/
structure Diagnostic where
  /-- The code, usually one of the catalogue. -/
  id : String
  /-- How grave it is. -/
  severity : Severity
  /-- What was found. -/
  message : String
  /-- Where it was found. -/
  location : Option Location := none
  /-- The text at fault. -/
  fragment : Option String := none
  /-- Named details. -/
  context : Option (Table String) := none
  deriving DecidableEq, Repr

namespace Diagnostic

/-- Whether the finding drops its statement. -/
def isError (d : Diagnostic) : Bool := d.severity == .error

/-- A diagnostic on one line. -/
def display (d : Diagnostic) : String :=
  let place := match d.location with
    | some l => l.display ++ ": "
    | none => ""
  place ++ d.severity.word ++ "[" ++ d.id ++ "]: " ++ d.message

/-- The explanation of the code of the diagnostic. -/
def explain? (d : Diagnostic) : Option String := Code.explain? d.id

/-- A diagnostic in JSON. -/
def toJson (d : Diagnostic) : Json :=
  .obj ([("id", .str d.id), ("severity", .str d.severity.word), ("message", .str d.message)] ++
    Json.field? "location" Location.toJson d.location ++
    Json.field? "fragment" Json.str d.fragment ++
    Json.field? "context" (Json.ofTable Json.str) d.context)

/-- The diagnostic that a JSON value describes. -/
def ofJson? (j : Json) : Option Diagnostic := do
  match ← j.record? [.required "id", .required "severity", .required "message",
      .required "location", .required "fragment", .required "context"] with
  | [id, severity, message, location, fragment, context] =>
    return {
      id := ← Json.given Json.str? id
      severity := ← Json.given (fun j => j.variant?.bind Severity.ofWord?) severity
      message := ← Json.given Json.str? message
      location := ← Json.orElse none (Json.option? Location.ofJson?) location
      fragment := ← Json.orElse none (Json.option? Json.str?) fragment
      context := ← Json.orElse none (Json.option? (Json.table? Json.str?)) context }
  | _ => none

end Diagnostic

/-- Whether any of the findings drops its statement. -/
def hasErrors (ds : List Diagnostic) : Bool := ds.any Diagnostic.isError

end ValidUsage
