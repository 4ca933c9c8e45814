import ValidUsage.Vu.Basic

/-!
# Finding statements in documents

A document is read line by line. A line `:name: value` defines a macro; the head of a block for a
reference page names the API that is documented, and defines the macro `refpage`. A paragraph that
opens with a bullet is a codified statement if its first line, or the one after an anchor, is the
tag, and there is text behind it.
-/

namespace ValidUsage

/-- A codified statement in its document. -/
structure VuParagraph where
  /-- The line of the document on which the paragraph starts, counted from one. -/
  line : Nat
  /-- The lines of the paragraph. -/
  lines : List (List Char)
  /-- The anchor of the statement. -/
  anchor : Option (List Char)
  /-- How many lines of the paragraph come before the text of the statement. -/
  start : Nat
  /-- The API whose page the paragraph is on. -/
  api : Option String
  /-- The macros that are defined before the paragraph. -/
  macros : Table String

namespace VuParagraph

/-- The lines of the text of the statement. -/
def vuLines (p : VuParagraph) : List (List Char) := p.lines.drop p.start

/-- The line of the document on which the text of the statement starts. -/
def vuLine (p : VuParagraph) : Nat := p.line + p.start

/-- Read the statement of a paragraph. -/
def vu (p : VuParagraph) (file : String) : Except VuError Vu := Vu.ofLines p.vuLines file p.vuLine

end VuParagraph

/-- A document with the statements that it holds. -/
structure Document where
  /-- The name of the document. -/
  file : String
  /-- Its lines. -/
  lines : List (List Char)
  /-- Its codified statements, in order. -/
  paragraphs : List VuParagraph

namespace Document

/-- What an anchor of a statement contains. -/
def anchorMark : List Char := "VUID-".toList

/-- The macro that holds the API whose page a statement is on. -/
def pageMacro : String := "refpage"

/-- A character of the name of a macro in its definition. -/
def isMacroChar (c : Char) : Bool := Text.isNameChar c || c == '-'

/-- The name and the value of the macro that a line defines. -/
def definition? (line : List Char) : Option (String × String) := do
  let rest ← Text.stripPrefix? [':'] line
  let (name, value) ← Text.breakOn [':'] rest
  if !name.isEmpty && name.all isMacroChar then
    some (String.ofList name, String.ofList (Text.trim value))
  else none

/-- The API whose page a line opens. -/
def page? (line : List Char) : Option String :=
  if "[open,".toList.isPrefixOf line then do
    let (_, rest) ← Text.breakOn "refpage='".toList line
    let (page, _) ← Text.breakOn ['\''] rest
    return String.ofList page
  else none

/-- Whether a line opens with a bullet. -/
def isBullet (line : List Char) : Bool := Paragraph.bullet.isPrefixOf (Text.trimStart line)

/-- Whether a line ends the paragraph before it. -/
def endsParagraph (line : List Char) : Bool :=
  let trimmed := Text.trimStart line
  let opens (s : String) : Bool := s.toList.isPrefixOf trimmed
  trimmed.isEmpty || isBullet line || opens "ifdef::" || opens "ifndef::" || opens "endif::" ||
    opens "****" || trimmed == "--".toList

/-- The anchor that the first line of a paragraph is. -/
def anchor? (line : List Char) : Option (List Char) :=
  let first := Text.trim (Paragraph.unbullet line)
  if "[[".toList.isPrefixOf first && Text.contains anchorMark first then some first else none

/-- The codified statement of a paragraph, if it is one. -/
def codified? (line : Nat) (api : Option String) (macros : Table String)
    (lines : List (List Char)) : Option VuParagraph :=
  let anchor := lines.head?.bind anchor?
  let tagAt := if anchor.isSome then 1 else 0
  if lines[tagAt]?.any Paragraph.isTag && tagAt + 1 < lines.length then
    some ⟨line, lines, anchor, tagAt + 1, api, macros⟩
  else none

/-- The codified statements of the lines that start at a line of a document. -/
def scanFrom (line : Nat) (api : Option String) (macros : Table String) :
    List (List Char) → List VuParagraph
  | [] => []
  | first :: rest =>
    match definition? first with
    | some (name, value) => scanFrom (line + 1) api (macros.insert name value) rest
    | none => match page? first with
      | some page => scanFrom (line + 1) (some page) (macros.insert pageMacro page) rest
      | none =>
        if isBullet first then
          let body := first :: rest.takeWhile (!endsParagraph ·)
          (codified? line api macros body).toList ++
            scanFrom (line + body.length) api macros (rest.dropWhile (!endsParagraph ·))
        else scanFrom (line + 1) api macros rest
termination_by lines => lines.length
decreasing_by
  · simp
  · simp
  · have := (List.dropWhile_suffix (l := rest) (!endsParagraph ·)).length_le
    simp only [List.length_cons]
    omega
  · simp

/-- A document from its text. -/
def ofText (file : String) (s : List Char) : Document :=
  let lines := Text.lines s
  ⟨file, lines, scanFrom 1 none .empty lines⟩

end Document
end ValidUsage
