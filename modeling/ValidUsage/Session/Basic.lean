import ValidUsage.Registry.Availability
import ValidUsage.Session.Request

/-!
# Sessions

A session takes lines one by one and answers every request when its last line has come. Until a
request chooses a build, the build has everything of the registry. A request that cannot be answered
ends the session.
-/

namespace ValidUsage.Session

/-- What becomes of a statement that is asked for. -/
inductive Verdict where
  /-- It is rendered. -/
  | success
  /-- It is not accepted. -/
  | fail
  /-- The build has nothing of it. -/
  | eliminated
  deriving DecidableEq, Repr

/-- The last line of the reply on a statement. -/
def Verdict.line (v : Verdict) : List Char :=
  RequestKind.statement.keyword ++ match v with
    | .success => "-SUCCESS".toList
    | .fail => "-FAIL".toList
    | .eliminated => "-ELIMINATED".toList

/-- The line between the two renderings of a statement. -/
def proseLine : List Char := "FORMAT-VU-TEXT".toList

/-- The answer to a request. -/
structure Reply where
  /-- Its lines. -/
  lines : List (List Char)
  /-- What is reported besides. -/
  diagnostics : List Diagnostic

namespace Reply

/-- The text of a reply; every line has an end. -/
def text (a : Reply) : List Char := a.lines.flatMap (· ++ ['\n'])

/-- The reply to the choice of a build. -/
def versions : Reply := ⟨["VERSIONS-SUCCESS".toList], []⟩

/-- The reply on a statement: lines between the keyword and the verdict. -/
def statement (lines : List (List Char)) (v : Verdict) (ds : List Diagnostic) : Reply :=
  ⟨RequestKind.statement.keyword :: lines ++ [v.line], ds⟩

end Reply

/-- The reply on a statement. One that is not accepted is sent back. -/
def StatementRequest.reply (q : StatementRequest) (o : Overflow) (r : Registry) (b : Build) :
    Except Failure Reply :=
  match q.build o r b with
  | .error _ => .error .overrun
  | .ok (.error .unscannable) => .error .unscannable
  | .ok (.error e) => .ok (.statement q.lines .fail e.diagnostics)
  | .ok (.ok (.eliminated warnings)) => .ok (.statement [] .eliminated warnings)
  | .ok (.ok (.built output text warnings)) =>
    .ok (.statement (Text.lines output ++ proseLine :: Text.lines text) .success warnings)

/-- The build that counts behind a request, and the reply to it. -/
def Request.answer (q : Request) (o : Overflow) (r : Registry) (b : Build) :
    Except Failure (Build × Reply) :=
  match q.kind with
  | .versions => .ok ({ b with config := chosenBuild r q.lines }, .versions)
  | .statement => do return (b, ← (← StatementRequest.ofLines q.lines).reply o r b)

/-- How far a session is. -/
inductive Stage where
  /-- A request may come. -/
  | ready
  /-- These lines of a request have come. -/
  | within (q : Request)
  /-- The session was ended. -/
  | closed
  /-- The session failed. -/
  | failed (f : Failure)
  deriving DecidableEq, Repr

end Session

/-- A session. -/
structure Session where
  /-- What becomes of line numbers that are too large. -/
  overflow : Overflow
  /-- The registry that is asked. -/
  registry : Registry
  /-- The build that was chosen last. -/
  build : Build
  /-- How far it is. -/
  stage : Session.Stage

namespace Session

/-- A session that begins: the build has everything. -/
def start (o : Overflow) (r : Registry) : Session := ⟨o, r, ⟨.all r, .ofRegistry r⟩, .ready⟩

/-- The session after a request has come in full, and the reply to it. -/
def serve (s : Session) (q : Request) : Session × Option Reply :=
  match q.answer s.overflow s.registry s.build with
  | .ok (build, reply) => ({ s with build, stage := .ready }, some reply)
  | .error f => ({ s with stage := .failed f }, none)

/-- The session after a line, and the reply if the line ends a request. -/
def feed (s : Session) (line : List Char) : Session × Option Reply :=
  let line := Text.trimEnd line
  match s.stage with
  | .ready =>
    if line = exitLine then ({ s with stage := .closed }, none)
    else match RequestKind.ofKeyword? line with
      | some kind => ({ s with stage := .within ⟨kind, []⟩ }, none)
      | none => ({ s with stage := .failed (.unknownCommand line) }, none)
  | .within q =>
    if line = q.kind.terminator then s.serve q
    else ({ s with stage := .within { q with lines := q.lines ++ [line] } }, none)
  | .closed | .failed _ => (s, none)

/-- The session after the end of its input. -/
def finish (s : Session) : Session :=
  match s.stage with
  | .ready => { s with stage := .closed }
  | .within q => { s with stage := .failed (.unterminated q.kind) }
  | .closed | .failed _ => s

/-- Whether a session takes no more lines. -/
def isOver (s : Session) : Bool :=
  match s.stage with
  | .closed | .failed _ => true
  | .ready | .within _ => false

/-- Why the session failed, if it did. -/
def failure? (s : Session) : Option Failure :=
  match s.stage with
  | .failed f => some f
  | _ => none

/-- The session after lines, with the replies to its requests. -/
def feedAll (s : Session) : List (List Char) → Session × List Reply
  | [] => (s, [])
  | line :: lines =>
    let (s, reply) := s.feed line
    let (s, replies) := s.feedAll lines
    (s, reply.toList ++ replies)

/-- The session after the whole of an input, with the replies to its requests. -/
def run (s : Session) (input : List Char) : Session × List Reply :=
  let (s, replies) := s.feedAll (Text.lines input)
  (s.finish, replies)

end Session
end ValidUsage
