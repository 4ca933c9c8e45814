import ValidUsage.Document.Layout

/-!
# Documents that are one statement

A document without codified statements that is not blank is one statement; the tag may stand on its
first line. Such a document is laid out by writing the statement in its source form.
-/

namespace ValidUsage

/-- A whole document as one statement. -/
def VuParagraph.whole (lines : List (List Char)) : VuParagraph where
  line := 1
  lines := lines
  anchor := none
  start := if lines.head?.any Paragraph.isTag then 1 else 0
  api := none
  macros := .empty

/-- The lines before a statement, and the statement in its source form. -/
def VuParagraph.standalone (p : VuParagraph) (v : Vu) : List Char :=
  (p.lines.take p.start).flatMap (· ++ ['\n']) ++ v.raw.source ++ ['\n']

/-- A text in its laid out form. -/
structure LaidOut where
  /-- The text. -/
  text : List Char
  /-- What is reported about statements that stay as they are. -/
  diagnostics : List Diagnostic

namespace Document

/-- Whether no line of a document has anything on it. -/
def isBlank (d : Document) : Bool := d.lines.all fun l => (Text.trim l).isEmpty

/-- The statements of a document, which may be one itself. -/
def statements (d : Document) : List VuParagraph :=
  if d.paragraphs.isEmpty && !d.isBlank then [.whole d.lines] else d.paragraphs

/-- The text of a document in its laid out form. A text that is one statement, but one that cannot
be read, stays as it is. -/
def layout (file : String) (s : List Char) : LaidOut :=
  let d := ofText file s
  if d.paragraphs.isEmpty then
    match d.statements with
    | [] => ⟨s, []⟩
    | p :: _ => match p.vu file with
      | .ok v => ⟨p.standalone v, []⟩
      | .error e => ⟨s, e.diagnostics⟩
  else
    let f := d.format
    ⟨f.text, f.diagnostics⟩

end Document
end ValidUsage
