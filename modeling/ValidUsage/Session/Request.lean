import ValidUsage.Number.Count
import ValidUsage.Number.Width
import ValidUsage.Paragraph.Prepare
import ValidUsage.Text.Quoted
import ValidUsage.Vu.Basic

/-!
# Requests of a session

The build of the documentation talks to this library in lines. A request is a keyword on a line of
its own, the lines of the request, and a line that ends it. One kind of request chooses the versions
and extensions of the build, the other one asks for a statement to be rendered. Blanks at the end of
a line do not count.
-/

namespace ValidUsage.Session

/-- What a request is about. -/
inductive RequestKind where
  /-- The versions and extensions of the build. -/
  | versions
  /-- A statement of valid usage. -/
  | statement
  deriving DecidableEq, Repr

namespace RequestKind

/-- The line that opens a request. -/
def keyword : RequestKind → List Char
  | .versions => "VERSIONS".toList
  | .statement => "FORMAT-VU".toList

/-- The line that ends a request. -/
def terminator (k : RequestKind) : List Char := k.keyword ++ "-END".toList

/-- The kind of request that a line opens. -/
def ofKeyword? (line : List Char) : Option RequestKind :=
  [versions, statement].find? fun k => k.keyword == line

end RequestKind

/-- A request. -/
structure Request where
  /-- What it is about. -/
  kind : RequestKind
  /-- The lines between its keyword and its end. -/
  lines : List (List Char)
  deriving DecidableEq, Repr

/-- The lines in which a request is sent. -/
def Request.sent (q : Request) : List (List Char) :=
  q.kind.keyword :: q.lines ++ [q.kind.terminator]

/-- The line that ends a session. -/
def exitLine : List Char := "EXIT".toList

/-- Why a session fails. -/
inductive Failure where
  /-- A line opens no request. -/
  | unknownCommand (line : List Char)
  /-- The input ends within a request. -/
  | unterminated (kind : RequestKind)
  /-- A request for a statement has too few lines. -/
  | incomplete
  /-- A request for a statement has no statement. -/
  | noStatement
  /-- The line number in a request is no count. -/
  | invalidLine (text : List Char) (cause : CountError)
  /-- The last name on the line of macros has no value. -/
  | unpairedMacro (line : List Char)
  /-- A statement cannot be scanned for macros. -/
  | unscannable
  /-- A line number about a statement is too large, and the process breaks off. -/
  | overrun
  deriving DecidableEq, Repr

namespace Failure

/-- The message for a session that fails. -/
def message : Failure → String
  | unknownCommand line => "invalid command " ++ Text.quoted line
  | unterminated kind => "input ended before " ++ String.ofList kind.terminator
  | incomplete => "FORMAT-VU needs an API, a file, a line, macros and VU text"
  | noStatement => "FORMAT-VU without VU text"
  | invalidLine text _ => "invalid line number " ++ Text.quoted text
  | unpairedMacro line => "macro line has a name without a value: " ++ Text.quoted line
  | unscannable => VuError.unscannable.message
  | overrun => "attempt to add with overflow"

/-- What is behind a failure. -/
def causes : Failure → List String
  | invalidLine _ cause => [cause.message]
  | _ => []

end Failure

/-- What stands before the name of every version that a registry does not list. -/
def versionMark : List Char := "VK_VERSION_".toList

/-- Whether a name is that of a version. -/
def isVersion (r : Registry) (name : String) : Bool :=
  match r.interface? name with
  | some i => i.kind == .version
  | none => versionMark.isPrefixOf (name.toList.map Char.toUpper)

/-- The build that the lines of a request choose: all names on them, in whatever order. -/
def chosenBuild (r : Registry) (lines : List (List Char)) : BuildConfig :=
  let names := (lines.flatMap Text.words).map String.ofList
  { versions := names.filter (isVersion r)
    extensions := names.filter (!isVersion r ·) }

/-- The names and values at the places of a list that come in pairs. -/
def pairUp : List (List Char) → Option (List (String × String))
  | [] => some []
  | [_] => none
  | name :: value :: rest =>
    (pairUp rest).map ((String.ofList name, String.ofList value) :: ·)

/-- The macros on a line: names and values with a dollar sign between any two. -/
def macrosOn (line : List Char) : Except Failure (Table String) :=
  if line.isEmpty then .ok .empty
  else match pairUp (Text.splitOn '$' line) with
    | some entries => .ok (.ofList entries)
    | none => .error (.unpairedMacro line)

/-- A statement that is to be rendered. -/
structure StatementRequest where
  /-- The API that it documents. -/
  api : String
  /-- The document that it is from. -/
  file : String
  /-- The line of the document on which it starts. -/
  line : Nat
  /-- The macros that are defined. -/
  macros : Table String
  /-- Its lines, which the tag may lead. -/
  lines : List (List Char)
  deriving DecidableEq, Repr

namespace StatementRequest

/-- The statement that the lines of a request ask for. -/
def ofLines : List (List Char) → Except Failure StatementRequest
  | api :: file :: line :: macros :: statement => do
    if statement.isEmpty then throw .noStatement
    let number ← (Count.read limit64 (Text.trim line)).mapError (.invalidLine line)
    return ⟨String.ofList api, String.ofList file, number, ← macrosOn macros, statement⟩
  | _ => .error .incomplete

/-- Whether the tag leads the lines of the statement. -/
def isTagged (q : StatementRequest) : Bool := q.lines.head?.any Paragraph.isTag

/-- The lines of the statement without the tag. -/
def body (q : StatementRequest) : List (List Char) :=
  if q.isTagged then q.lines.drop 1 else q.lines

/-- The line of the document on which the statement starts behind the tag. -/
def start (q : StatementRequest) (o : Overflow) : Except Overrun Nat :=
  if q.isTagged then o.add q.line 1 else .ok q.line

/-- The text of the statement, as it is read. -/
def prepared (q : StatementRequest) : Paragraph.Prepared := Paragraph.prepare q.body

/-- Whether the line numbers about a statement that starts at a line have 64 bits. -/
def fitsFrom (q : StatementRequest) (line : Nat) (r : Registry) (b : Build) : Bool :=
  let origin : Origin := ⟨q.file, line, q.prepared.indent⟩
  (Vu.located q.prepared.text q.api q.macros r b).all origin.fits

/-- Whether all line numbers about the statement have 64 bits: that of its first line, and those of
the diagnostics on a build of it. -/
def fits (q : StatementRequest) (r : Registry) (b : Build) : Bool :=
  match q.start .breaks with
  | .ok line => q.fitsFrom line r b
  | .error _ => false

/-- What a build makes of the statement. -/
def build (q : StatementRequest) (o : Overflow) (r : Registry) (b : Build) :
    Except Overrun (Except VuError BuildOutcome) := do
  let line ← q.start o
  if o == .breaks && !q.fitsFrom line r b then throw .sum64
  return (Vu.ofLines q.body q.file line).bind fun v => v.build q.api q.macros r b

end StatementRequest
end ValidUsage.Session
