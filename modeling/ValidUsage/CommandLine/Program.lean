import ValidUsage.CommandLine.Outcome

/-!
# What a command asks of its surroundings

A command reads files, may write one, and ends with an outcome or with a session. What it does with
an answer is a function, so that the same command can be run on real files or on given ones.
-/

namespace ValidUsage.CommandLine

/-- What a command asks of its surroundings, step by step. -/
inductive Program where
  /-- It is done. -/
  | done (o : Outcome)
  /-- It reads a file; the answer is the text, or why it cannot be read. -/
  | read (path : String) (next : Except String (List Char) → Program)
  /-- It writes a file; the answer is whether that fails, and why. -/
  | write (path : String) (text : List Char) (next : Option String → Program)
  /-- It holds a session. -/
  | hold (s : Session)

namespace Program

/-- A program that fails. -/
def fail (message : String) (causes : List String) : Program :=
  .done (Ending.outcome [] [] (.failed ⟨message, causes⟩))

/-- The text about what was found in the answer to a request, a line each. -/
def reportText (ds : List Diagnostic) : List Char := ds.flatMap fun d => line d.display

/-- What a session comes to that failed, or was closed. -/
def sessionOutcome (out err : List Char) (s : Session) : Outcome :=
  match s.failure? with
  | none => ⟨0, out, err⟩
  | some .unscannable | some .overrun => Ending.outcome out err .broken
  | some f => Ending.outcome out err (.failed (.ofSession f))

/-- The outcome of a session on an input. -/
def holdOn (input : List Char) (s : Session) : Outcome :=
  let (s, replies) := s.run input
  sessionOutcome (replies.flatMap (·.text)) (replies.flatMap fun a => reportText a.diagnostics) s

/-- The outcome of a program on given files and a given input, when no writing fails, with the files
that it writes. -/
def run (files : String → Except String (List Char)) (input : List Char) :
    Program → Outcome × List (String × List Char)
  | done o => (o, [])
  | read path next => run files input (next (files path))
  | write path text next =>
    let (o, written) := run files input (next none)
    (o, (path, text) :: written)
  | hold s => (holdOn input s, [])

end Program
end ValidUsage.CommandLine
