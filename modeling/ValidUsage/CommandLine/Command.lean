import ValidUsage.CommandLine.Arguments

/-!
# Commands

Every command is about a file, a code or a session. Some need a registry, and a build may be
narrowed down. The way in which results are shown can be chosen before the name of a command and
behind it; the choice behind it counts.
-/

namespace ValidUsage.CommandLine

/-- How results are shown. -/
inductive Mode where
  /-- For people. -/
  | pretty
  /-- As one value in JSON. -/
  | json
  deriving DecidableEq, Repr

/-- The mode of a word. -/
def Mode.ofWord? : String → Option Mode
  | "pretty" => some .pretty
  | "json" => some .json
  | _ => none

/-- Which rendering of a statement a build shows. -/
inductive BuildStyle where
  /-- The markup. -/
  | output
  /-- The prose. -/
  | text
  deriving DecidableEq, Repr

/-- The style of a word. -/
def BuildStyle.ofWord? : String → Option BuildStyle
  | "output" => some .output
  | "text" => some .text
  | _ => none

/-- What is done with a document in its laid out form. -/
inductive FormatAction where
  /-- It is printed. -/
  | print
  /-- It is written in place of the document. -/
  | write
  /-- It is compared with the document. -/
  | check
  deriving DecidableEq, Repr

/-- What a build is narrowed down to. -/
structure BuildChoice where
  /-- The path of a configuration. -/
  config : Option String
  /-- The versions besides. -/
  versions : List String
  /-- The extensions besides. -/
  extensions : List String
  deriving DecidableEq, Repr

/-- A command. -/
inductive Command where
  /-- Show the trees of the statements of a file. -/
  | parse (file : String)
  /-- Check the statements of a file. -/
  | check (file registry : String) (api : Option String)
  /-- Strip the statements of a file for a build and render them. -/
  | build (file registry : String) (api : Option String) (choice : BuildChoice) (style : BuildStyle)
  /-- Lay a file out. -/
  | format (file : String) (action : FormatAction)
  /-- Show the parameter tags of the statements of a file. -/
  | tag (file : String)
  /-- Explain a code. -/
  | explain (id : String)
  /-- Answer requests. -/
  | serve (registry : String)
  deriving DecidableEq, Repr

/-- An option that ends the reading of arguments with help. -/
def helpOption : OptionRule where
  name := "help"
  letter := some 'h'
  effect := .stop .help

/-- The options that stand before the name of a command and behind it. -/
def sharedOptions : List OptionRule :=
  [{ name := "output", effect := .value fun v => (Mode.ofWord? v).isSome },
   { name := "verbose", letter := some 'v', effect := .flag, repeats := true },
   helpOption]

/-- The arguments before those of a command. -/
def outerGrammar : Grammar where
  options := sharedOptions ++ [{ name := "version", letter := some 'V', effect := .stop .version }]
  operands := .command

/-- An option with any value. -/
def textOption (name : String) (repeats : Bool) : OptionRule where
  name := name
  effect := .value fun _ => true
  repeats := repeats

/-- An option whose value is a path, which is not empty. -/
def pathOption (name : String) : OptionRule where
  name := name
  effect := .value fun v => !v.isEmpty

/-- An option without a value. -/
def flagOption (name : String) (letter : Option Char) : OptionRule where
  name := name
  letter := letter
  effect := .flag

/-- A command that is known. -/
structure CommandRule where
  /-- Its name. -/
  name : String
  /-- The options of its own. -/
  options : List OptionRule := []
  /-- What stands among the options. -/
  operands : OperandRule := .one
  /-- The command of arguments in which nothing is missing or contradictory. -/
  command? : Arguments → Option Command

/-- The arguments of a command. -/
def CommandRule.grammar (c : CommandRule) : Grammar := ⟨c.options ++ sharedOptions, c.operands⟩

/-- What is done with a laid out document; it is either written or compared. -/
def formatAction? (a : Arguments) : Option FormatAction :=
  match a.has "write", a.has "check" with
  | true, true => none
  | true, false => some .write
  | false, true => some .check
  | false, false => some .print

/-- The build that arguments describe. -/
def buildCommand? (a : Arguments) : Option Command := do
  let choice : BuildChoice := ⟨a.value? "config", a.values "version", a.values "extension"⟩
  let style := ((a.value? "style").bind BuildStyle.ofWord?).getD .output
  return .build (← a.operand) (← a.value? "registry") (a.value? "api") choice style

/-- The commands. -/
def commands : List CommandRule := [
  { name := "parse"
    command? := fun a => return .parse (← a.operand) },
  { name := "check"
    options := [pathOption "registry", textOption "api" false]
    command? := fun a => return .check (← a.operand) (← a.value? "registry") (a.value? "api") },
  { name := "build"
    options := [pathOption "registry", textOption "api" false, pathOption "config",
      textOption "version" true, textOption "extension" true,
      { name := "style", effect := .value fun v => (BuildStyle.ofWord? v).isSome }]
    command? := buildCommand? },
  { name := "format"
    options := [flagOption "write" (some 'w'), flagOption "check" none]
    command? := fun a => return .format (← a.operand) (← formatAction? a) },
  { name := "tag"
    command? := fun a => return .tag (← a.operand) },
  { name := "explain"
    command? := fun a => return .explain (← a.operand) },
  { name := "serve"
    options := [pathOption "registry", textOption "api" false]
    operands := .nothing
    command? := fun a => return .serve (← a.value? "registry") }]

/-- The name that asks for help on a command. -/
def helpName : String := "help"

/-- What a question for help on commands comes to: it names at most one that is known. -/
def helpOn : List String → Stop
  | [] => .help
  | [name] => if name = helpName ∨ commands.any (·.name == name) then .help else .misuse
  | _ => .misuse

/-- A command with the way in which its results are shown. -/
structure Invocation where
  /-- The way, if it was chosen. -/
  mode : Option Mode
  /-- The command. -/
  command : Command
  deriving DecidableEq, Repr

/-- The mode that arguments choose. -/
def Arguments.mode? (a : Arguments) : Option Mode := (a.value? "output").bind Mode.ofWord?

/-- The invocation that arguments describe. -/
def Invocation.ofArguments (args : List String) : Except Stop Invocation := do
  let outer ← Arguments.read outerGrammar {} args
  match outer.command with
  | none => throw .misuse
  | some (name, args) =>
    if name = helpName then throw (helpOn args)
    match commands.find? (·.name == name) with
    | none => throw .misuse
    | some rule =>
      let inner ← Arguments.read rule.grammar {} args
      match rule.command? inner with
      | none => throw .misuse
      | some command => return ⟨inner.mode?.or outer.mode?, command⟩

end ValidUsage.CommandLine
