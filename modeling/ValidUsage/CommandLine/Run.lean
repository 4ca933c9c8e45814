import ValidUsage.CommandLine.Command
import ValidUsage.CommandLine.Program
import ValidUsage.Document.Standalone
import ValidUsage.Json.Printer
import ValidUsage.Registry.Exchange
import ValidUsage.Syntax.Exchange

/-!
# Running commands

The commands on the statements of a file go over them one by one, gather what is found, and show
either one value in JSON or a text for each statement with the findings behind. A fault in a
statement does not keep the others from being looked at.
-/

namespace ValidUsage.CommandLine

/-- A value in JSON over several lines, with the fields of objects in order. -/
def jsonText (j : Json) : List Char := line j.sortFields.pretty

/-- What comes of one statement. -/
structure Finding where
  /-- What is reported of it. -/
  report : Option (List (String × Json)) := none
  /-- What is shown of it. -/
  text : List Char := []
  /-- What was found. -/
  diagnostics : List Diagnostic := []

/-- What comes of a statement that is at fault. -/
def Finding.ofError : VuError → Except Ending Finding
  | .unscannable => .error .broken
  | e => .ok { diagnostics := e.diagnostics }

/-- What comes of several statements, up to the first one that ends the command. -/
structure Survey where
  /-- What comes of each statement. -/
  findings : List Finding
  /-- How the command ends early, if it does. -/
  ending : Option Ending

namespace Survey

/-- Go over statements. -/
def gather (look : VuParagraph → Except Ending Finding) : List VuParagraph → Survey
  | [] => ⟨[], none⟩
  | p :: ps =>
    match look p with
    | .error e => ⟨[], some e⟩
    | .ok x =>
      let rest := gather look ps
      { rest with findings := x :: rest.findings }

/-- Go over the statements of a file. -/
def ofFile (file : String) (input : List Char) (look : VuParagraph → Except Ending Finding) :
    Survey :=
  gather look (Document.ofText file input).statements

/-- All that was found. -/
def diagnostics (s : Survey) : List Diagnostic := s.findings.flatMap (·.diagnostics)

/-- All that is shown. -/
def text (s : Survey) : List Char := s.findings.flatMap (·.text)

/-- What was found, in JSON. -/
def diagnosticsField (s : Survey) : String × Json :=
  ("diagnostics", .arr (s.diagnostics.map Diagnostic.toJson))

/-- What is reported of each statement, and what was found. -/
def json (s : Survey) : Json :=
  .obj [("vus", .arr (s.findings.filterMap fun x => x.report.map Json.obj)), s.diagnosticsField]

/-- The outcome of a command that went over the statements of a file, with a value in JSON and a
text before the findings. -/
def outcome (s : Survey) (mode : Mode) (file : String) (input : List Char) (json : Json)
    (note : List Char) : Outcome :=
  let out := match mode with
    | .pretty => s.text
    | .json => []
  match s.ending with
  | some e => e.outcome out []
  | none => match mode with
    | .json => ⟨statusOf s.diagnostics, jsonText json, []⟩
    | .pretty => match findingsText file input s.diagnostics with
      | .ok text => ⟨statusOf s.diagnostics, out, note ++ text⟩
      | .error text => Ending.outcome out (note ++ text) .broken

end Survey

/-- The place of a statement, as it is shown. -/
def placeOf (file : String) (p : VuParagraph) : String := file ++ ":" ++ toString p.vuLine

/-- What comes of showing the tree of a statement. -/
def parseFinding (file : String) (p : VuParagraph) : Except Ending Finding :=
  match p.vu file with
  | .error e => Finding.ofError e
  | .ok v =>
    let tree := Exchange.block .json v.raw
    .ok {
      report := some [("line", .nat p.vuLine), ("ast", tree)]
      text := line ("// " ++ placeOf file p) ++ line tree.pretty }

/-- What comes of showing the parameter tag of a statement. -/
def tagFinding (file : String) (p : VuParagraph) : Except Ending Finding :=
  match p.vu file with
  | .error e => Finding.ofError e
  | .ok v => .ok {
      report := some [("line", .nat p.vuLine), ("tag", .str v.parameterTag)]
      text := line (placeOf file p ++ ": " ++ v.parameterTag) }

/-- The API that a statement documents, and the macros for it. A statement that is on no page is
taken to document the given API. -/
def subjectOf (file : String) (api : Option String) (p : VuParagraph) :
    Except Ending (String × Table String) :=
  match p.api, api with
  | some page, _ => .ok (page, p.macros)
  | none, some api => .ok (api, p.macros.insert Document.pageMacro api)
  | none, none => .error (.failed
      ⟨file ++ ":" ++ toString p.line ++ ": VU is outside any reference page; pass --api", []⟩)

/-- What comes of checking a statement. -/
def checkFinding (file : String) (r : Registry) (api : Option String) (p : VuParagraph) :
    Except Ending Finding := do
  let (api, macros) ← subjectOf file api p
  match (do ((← p.vu file).check api macros r).2 : Except VuError CheckedVu) with
  | .ok checked => return { diagnostics := checked.warnings }
  | .error e => Finding.ofError e

/-- What is reported of a statement in a build. -/
def outcomeFields : BuildOutcome → List (String × Json)
  | .built output text warnings =>
    [("outcome", .str "built"), ("output", .str (String.ofList output)),
     ("text", .str (String.ofList text)), ("warnings", .arr (warnings.map Diagnostic.toJson))]
  | .eliminated warnings =>
    [("outcome", .str "eliminated"), ("warnings", .arr (warnings.map Diagnostic.toJson))]

/-- What is shown of a statement in a build. -/
def outcomeText (style : BuildStyle) (place : String) : BuildOutcome → List Char
  | .built output text _ =>
    line ("// " ++ place) ++ (match style with
      | .output => output
      | .text => text) ++ ['\n']
  | .eliminated _ => line ("// " ++ place ++ ": eliminated")

/-- What comes of building a statement. -/
def buildFinding (file : String) (r : Registry) (b : Build) (api : Option String)
    (style : BuildStyle) (p : VuParagraph) : Except Ending Finding := do
  let (api, macros) ← subjectOf file api p
  match (do (← p.vu file).build api macros r b : Except VuError BuildOutcome) with
  | .error e => Finding.ofError e
  | .ok o => return {
      report := some (("line", .nat p.vuLine) :: outcomeFields o)
      text := outcomeText style (placeOf file p) o
      diagnostics := o.warnings }

namespace Program

/-- Read the file that a command is about. -/
def input (file : String) (next : List Char → Program) : Program :=
  .read file fun
    | .ok text => next text
    | .error cause => fail ("failed to read " ++ file) [cause]

/-- Read a file that a command needs besides. -/
def resource {α : Type} (what path : String) (value : String → Except String α)
    (next : α → Program) : Program :=
  let failed := fail ("failed to load " ++ what ++ " " ++ path)
  .read path fun
    | .error cause => failed ["failed to read " ++ path ++ ": " ++ cause, cause]
    | .ok text => match value (String.ofList text) with
      | .error cause => failed [cause]
      | .ok a => next a

/-- Read a registry. -/
def registry (path : String) (next : Registry → Program) : Program :=
  resource "registry" path (fun text => (Registry.loadText text).mapError (·.message)) next

/-- The configuration that a text describes. -/
def configOf (text : String) : Except String BuildConfig :=
  match (Json.parse? text).bind BuildConfig.ofJson? with
  | some c => .ok c
  | none => .error RegistryError.json.message

/-- Find out what a build is narrowed down to. If nothing is chosen it has everything; otherwise it
has what the configuration names, and the versions and extensions chosen besides. -/
def config (r : Registry) (choice : BuildChoice) (next : BuildConfig → Program) : Program :=
  let more (c : BuildConfig) : BuildConfig :=
    { c with
      versions := c.versions ++ choice.versions
      extensions := c.extensions ++ choice.extensions }
  match choice.config with
  | some path => resource "build configuration" path configOf (next ∘ more)
  | none =>
    if choice.versions.isEmpty && choice.extensions.isEmpty then next (.all r)
    else next (more { versions := [], extensions := [] })

/-- Go over the statements of a file, and report of each. -/
def survey (mode : Mode) (file : String) (look : VuParagraph → Except Ending Finding)
    (text : List Char) : Program :=
  let s := Survey.ofFile file text look
  .done (s.outcome mode file text s.json [])

/-- Check the statements of a file. -/
def check (mode : Mode) (file path : String) (api : Option String) : Program :=
  input file fun text => registry path fun r =>
    let s := Survey.ofFile file text (checkFinding file r api)
    let ok := !hasErrors s.diagnostics
    let count := s.findings.length
    let json := Json.obj [("ok", .bool ok), ("vus", .nat count), s.diagnosticsField]
    let note := if ok then line (toString count ++ " VU(s) ok") else []
    .done (s.outcome mode file text json note)

/-- What is said of a file: on its own in JSON, or besides for people. -/
def statusOutcome (mode : Mode) (code : Nat) (file status : String) (err : List Char) : Outcome :=
  match mode with
  | .json => ⟨code, jsonText (.obj [("status", .str status), ("file", .str file)]), err⟩
  | .pretty => ⟨code, [], err ++ line (status ++ ": " ++ file)⟩

/-- Lay a file out. -/
def format (mode : Mode) (file : String) (action : FormatAction) : Program :=
  input file fun text =>
    let laid := Document.layout file text
    let status := statusOf laid.diagnostics
    match findingsText file text laid.diagnostics with
    | .error err => .done (Ending.outcome [] err .broken)
    | .ok err =>
      let said (code : Nat) (s : String) : Program := .done (statusOutcome mode code file s err)
      match action with
      | .print => .done ⟨status, laid.text, err⟩
      | .check =>
        if laid.text = text then said status "already formatted" else said 1 "not formatted"
      | .write =>
        if laid.text = text then said status "already formatted"
        else .write file laid.text fun
          | none => said status "formatted"
          | some cause =>
            .done (Ending.outcome [] err (.failed ⟨"failed to write " ++ file, [cause]⟩))

/-- Explain a code. -/
def explain (mode : Mode) (id : String) : Outcome :=
  match mode with
  | .json => ⟨0, jsonText (.obj [("id", .str id),
      ("explanation", Json.ofOption .str (Code.explain? id))]), []⟩
  | .pretty => match Code.explain? id with
    | some text => ⟨0, line (coloured 36 id ++ ": " ++ text), []⟩
    | none => ⟨0, line (id ++ ": (no explanation available)"), []⟩

/-- What a command asks of its surroundings. -/
def ofCommand (o : Overflow) (mode : Mode) : Command → Program
  | .parse file => input file (survey mode file (parseFinding file))
  | .tag file => input file (survey mode file (tagFinding file))
  | .check file path api => check mode file path api
  | .build file path api choice style =>
    input file fun text => registry path fun r => config r choice fun c =>
      survey mode file (buildFinding file r ⟨c, .ofRegistry r⟩ api style) text
  | .format file action => format mode file action
  | .explain id => .done (explain mode id)
  | .serve path => registry path fun r => .hold (.start o r)

/-- What is said about the arguments. -/
def usage : List Char :=
  line "usage: vu [--output pretty|json] [-v] COMMAND" ++
    line "commands: parse FILE, check FILE, build FILE, format FILE, tag FILE, explain ID, serve"

/-- The version. -/
def versionText : List Char := line "vu 0.1.0"

/-- What arguments ask of the surroundings; the mode is for commands for which none is chosen. -/
def ofArguments (o : Overflow) (mode : Mode) (args : List String) : Program :=
  match Invocation.ofArguments args with
  | .ok i => ofCommand o (i.mode.getD mode) i.command
  | .error .help => .done ⟨0, usage, []⟩
  | .error .version => .done ⟨0, versionText, []⟩
  | .error .misuse => .done ⟨2, [], usage⟩

end Program
end ValidUsage.CommandLine
