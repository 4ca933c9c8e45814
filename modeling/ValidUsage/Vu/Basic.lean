import ValidUsage.Expansion
import ValidUsage.Layout.RoundTrip
import ValidUsage.Paragraph.Prepare
import ValidUsage.Strip.Basic
import ValidUsage.Verification.Basic
import ValidUsage.Vu.Tag

/-!
# A statement of valid usage on its way into a build

A statement is kept as it was written and, once its macros are replaced, as it is meant. The former
is laid out and tagged; the latter is checked, stripped and rendered. Expansion always starts from
the text as it was written, and one that fails leaves the statement as it was.
-/

namespace ValidUsage

/-- Why a statement does not get into the build. -/
inductive VuError where
  /-- Its text cannot be read. -/
  | syntaxFault (d : Diagnostic)
  /-- Its macros cannot be replaced. -/
  | macroFault (d : Diagnostic)
  /-- It is not accepted. -/
  | rejected (ds : List Diagnostic)
  /-- It is not rendered as itself. -/
  | internal (e : RoundTripError)
  /-- Its text cannot be scanned for macros. -/
  | unscannable
  deriving DecidableEq, Repr

namespace VuError

/-- The message for an error. -/
def message : VuError → String
  | syntaxFault d => d.display
  | macroFault d => d.display
  | rejected ds => "VU failed verification with " ++ toString ds.length ++ " error(s)"
  | internal e => "internal error: " ++ e.message
  | unscannable => MacroError.unscannable.message

/-- The diagnostics that an error is reported by. -/
def diagnostics : VuError → List Diagnostic
  | syntaxFault d => [d]
  | macroFault d => [d]
  | rejected ds => ds
  | internal e => [e.toDiagnostic]
  | unscannable => []

/-- The error of a text that cannot be read. -/
def ofSyntax (origin : Origin) (e : SyntaxError) : VuError := .syntaxFault {
  id := Code.syntaxError.id
  severity := .error
  message := e.message
  location := some (origin.locate e.pos) }

/-- The error of a text whose macros cannot be replaced. -/
def ofMacro (origin : Origin) : MacroError → VuError
  | .undefined name pos => .macroFault {
      id := Code.macroUndefined.id
      severity := .error
      message := (MacroError.undefined name pos).message
      location := some (origin.locate pos)
      fragment := some ("macro(" ++ name ++ ")") }
  | .unreadable e => .macroFault {
      id := Code.macroParse.id
      severity := .error
      message := (MacroError.unreadable e).message
      location := some (origin.locate e.pos) }
  | .unscannable => .unscannable

end VuError

/-- A statement of valid usage. -/
structure Vu where
  /-- The text that it was read from. -/
  text : List Char
  /-- The statement as it was written. -/
  raw : Block
  /-- The statement with its macros replaced, once they are. -/
  replaced : Option Block
  /-- Where it comes from. -/
  origin : Origin

namespace Vu

/-- Read a statement from a text that was prepared. -/
def ofText (s : List Char) (origin : Origin) : Except VuError Vu :=
  match parse s with
  | .ok b => .ok ⟨s, b, none, origin⟩
  | .error e => .error (.ofSyntax origin e)

/-- Read a statement from the lines of a paragraph that start at a line of a document. -/
def ofLines (lines : List (List Char)) (file : String) (line : Nat) : Except VuError Vu :=
  let prepared := Paragraph.prepare lines
  ofText prepared.text ⟨file, line, prepared.indent⟩

/-- The statement with its macros replaced, or as it was written as long as they are not. -/
def expanded (v : Vu) : Block := v.replaced.getD v.raw

/-- Replace the macros of a statement. -/
def applyMacros (v : Vu) (macros : Table String) : Except VuError Vu :=
  match expand macros v.text with
  | .error e => .error (.ofMacro v.origin e)
  | .ok x => match parse x.text with
    | .error e => .error (.ofMacro v.origin (.unreadable e))
    | .ok b => .ok { v with replaced := some b }

/-- A statement that is read keeps the text and has no macros replaced. -/
theorem ofText_eq_ok_iff {s : List Char} {origin : Origin} {v : Vu} :
    ofText s origin = .ok v ↔ ∃ b, parse s = .ok b ∧ v = ⟨s, b, none, origin⟩ := by
  unfold ofText
  cases parse s with
  | error e => simp
  | ok b => simp [eq_comm]

/-- A statement whose macros are replaced is what its text says after expansion. -/
theorem applyMacros_eq_ok {v w : Vu} {macros : Table String} (h : v.applyMacros macros = .ok w) :
    ∃ x b, expand macros v.text = .ok x ∧ parse x.text = .ok b ∧
      w = { v with replaced := some b } := by
  unfold applyMacros at h
  split at h
  next => cases h
  next x hx =>
    split at h
    next => cases h
    next b hb => exact ⟨x, b, hx, hb, (Except.ok.inj h).symm⟩

/-- What was found out about a statement that is accepted. -/
def verify (v : Vu) (s : Subject) : Except VuError Verification :=
  let found := v.expanded.verify s
  if found.isOk then .ok found else .error (.rejected (found.diagnostics v.origin s.api))

/-- The warning that a statement has dead code, if it has. -/
def deadCodeWarning? (v : Vu) : Option Diagnostic := v.expanded.deadCodeWarning? v.origin

/-- The rendering of a statement as it was written. -/
def render (v : Vu) (s : Subject) (r : Rendering) : Except VuError (List Char) :=
  (v.raw.render s r).mapError VuError.internal

/-- The parameter tag of a statement. -/
def parameterTag (v : Vu) : String := v.raw.parameterTag

/-- A name without the braces around it. -/
def withoutBraces (api : String) : String :=
  String.ofList
    ((api.toList.dropWhile (· == '\x7b')).reverse.dropWhile (· == '\x7d')).reverse

/-- The name of the API that a statement documents, which may be given by a macro in braces. -/
def resolveApi (v : Vu) (api : String) (macros : Table String) : Except VuError String :=
  match Expansion.resolveApi? macros api with
  | some api => .ok api
  | none => .error (.ofMacro v.origin (.undefined (withoutBraces api) ⟨1, 1⟩))

end Vu

/-- What is known of a statement that is accepted. -/
structure CheckedVu where
  /-- The API that it documents. -/
  api : String
  /-- The warnings about it. -/
  warnings : List Diagnostic

/-- What a build makes of a statement. -/
inductive BuildOutcome where
  /-- It is in the build, as markup and as prose. -/
  | built (output text : List Char) (warnings : List Diagnostic)
  /-- The build has nothing of it. -/
  | eliminated (warnings : List Diagnostic)

/-- The warnings about a statement in a build. -/
def BuildOutcome.warnings : BuildOutcome → List Diagnostic
  | built _ _ ws => ws
  | eliminated ws => ws

namespace Vu

/-- What is known of a statement whose macros are replaced, if it is accepted. -/
def accept (v : Vu) (api : String) (macros : Table String) (r : Registry) :
    Except VuError CheckedVu := do
  let api ← v.resolveApi api macros
  let _ ← v.verify ⟨r, api⟩
  return ⟨api, v.deadCodeWarning?.toList⟩

/-- Replace the macros of a statement and check it. The statement keeps the replacement also if it
is not accepted then. -/
def check (v : Vu) (api : String) (macros : Table String) (r : Registry) :
    Vu × Except VuError CheckedVu :=
  match v.applyMacros macros with
  | .error e => (v, .error e)
  | .ok v => (v, v.accept api macros r)

/-- Replace the macros of a statement, check it, strip it for a build and render it. -/
def build (v : Vu) (api : String) (macros : Table String) (r : Registry) (b : Build) :
    Except VuError BuildOutcome := do
  let v ← v.applyMacros macros
  let checked ← v.accept api macros r
  let stripped := v.expanded.strip b
  let warnings := checked.warnings ++ stripped.warnings v.origin
  match stripped.block with
  | none => return .eliminated warnings
  | some block =>
    let output ← (block.render ⟨r, checked.api⟩ .output).mapError VuError.internal
    return .built output (Prose.render ⟨r, checked.api⟩ block) warnings

/-- The positions that are turned into locations while a text is read and built, as far as it
gets. -/
def located (s : List Char) (api : String) (macros : Table String) (r : Registry) (b : Build) :
    List Pos :=
  match parse s with
  | .error e => [e.pos]
  | .ok _ => match expand macros s with
    | .error e => e.pos?.toList
    | .ok x => match parse x.text with
      | .error e => [e.pos]
      | .ok block => match Expansion.resolveApi? macros api with
        | none => [⟨1, 1⟩]
        | some api =>
          let found := block.verify ⟨r, api⟩
          if found.isOk then
            (if block.hasDeadCode then [⟨1, 1⟩] else []) ++
              (block.strip b).falsified.map Stmt.reported
          else found.issues.map (·.pos)

end Vu
end ValidUsage
