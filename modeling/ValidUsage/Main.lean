import ValidUsage.CommandLine.Run

/-!
# The program

Runs a command on real files and on the standard streams. A session is answered as it goes: every
reply is printed before the next line is read.
-/

namespace ValidUsage.Main

/-- Why a file cannot be read or written, in the words of the system. -/
def causeOf (e : IO.Error) : String :=
  match e with
  | .noFileOrDirectory _ _ _ => "No such file or directory (os error 2)"
  | .permissionDenied _ _ _ => "Permission denied (os error 13)"
  | .inappropriateType _ code details =>
    (if code = 21 then "Is a directory" else if code = 20 then "Not a directory" else details) ++
      " (os error " ++ toString code ++ ")"
  | e => toString e

/-- The text of bytes. -/
def textOf (bytes : ByteArray) : Except String (List Char) :=
  match String.fromUTF8? bytes with
  | some s => .ok s.toList
  | none => .error "stream did not contain valid UTF-8"

/-- The text of a file. -/
def readText (path : String) : IO (Except String (List Char)) := do
  match ← (IO.FS.readBinFile path).toBaseIO with
  | .ok bytes => return textOf bytes
  | .error e => return .error (causeOf e)

/-- Write a file, and say why if that fails. -/
def writeText (path : String) (text : List Char) : IO (Option String) := do
  match ← (IO.FS.writeFile path (String.ofList text)).toBaseIO with
  | .ok _ => return none
  | .error e => return some (causeOf e)

/-- Print what a command printed, and answer with its status. -/
def conclude (o : CommandLine.Outcome) : IO UInt32 := do
  let out ← IO.getStdout
  out.putStr (String.ofList o.out)
  out.flush
  (← IO.getStderr).putStr (String.ofList o.err)
  return o.code.toUInt32

/-- A line of the input without its end, if there is one more. -/
def nextLine (input : IO.FS.Stream) : IO (Option (List Char)) := do
  let line ← input.getLine
  return if line.isEmpty then none else (Text.lines line.toList).head?

/-- Hold a session on the standard streams. -/
partial def hold (s : Session) : IO UInt32 := do
  if s.isOver then conclude (CommandLine.Program.sessionOutcome [] [] s)
  else match ← nextLine (← IO.getStdin) with
    | none => hold s.finish
    | some line =>
      let (s, reply) := s.feed line
      if let some reply := reply then
        (← IO.getStderr).putStr
          (String.ofList (CommandLine.Program.reportText reply.diagnostics))
        let out ← IO.getStdout
        out.putStr (String.ofList reply.text)
        out.flush
      hold s

/-- Run a program. -/
def run : CommandLine.Program → IO UInt32
  | .done o => conclude o
  | .read path next => do run (next (← readText path))
  | .write path text next => do run (next (← writeText path text))
  | .hold s => hold s

end ValidUsage.Main

open ValidUsage in
/-- Run the command that the arguments describe. Without a choice results are shown for people on a
terminal, and as JSON elsewhere. Sums wrap around, as in what is built for release. -/
def main (args : List String) : IO UInt32 := do
  let terminal ← (← IO.getStdout).isTty
  Main.run (.ofArguments .wraps (if terminal then .pretty else .json) args)
