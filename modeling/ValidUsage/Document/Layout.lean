import ValidUsage.Document.Scan

/-!
# Laying out documents

Every codified statement of a document is written in its source form, and all other lines stay as
they are. A statement that cannot be read, or whose source form is not the statement, stays as it is
and is reported.
-/

namespace ValidUsage

/-- The lines of a paragraph around the source text of its statement: a bullet, the anchor if there
is one, the tag, and the text in the indentation of the paragraph. -/
def VuParagraph.layout (p : VuParagraph) (source : List Char) (indent : Nat) : List (List Char) :=
  let indent := max indent blockIndent
  let pad := List.replicate indent ' '
  let bullet := List.replicate (indent - blockIndent) ' ' ++ Paragraph.bullet
  let head := match p.anchor with
    | some anchor => [bullet ++ anchor, pad ++ Paragraph.tag]
    | none => [bullet ++ Paragraph.tag]
  head ++ (Text.lines source).map (pad ++ ·)

/-- The lines of a paragraph with its statement in source form. -/
def VuParagraph.formatted (p : VuParagraph) (file : String) :
    Except VuError (List (List Char)) := do
  let v ← p.vu file
  let source ← (v.raw.checked v.raw.source .source).mapError VuError.internal
  return p.layout source v.origin.indent

/-- A document in its laid out form. -/
structure FormattedDocument where
  /-- The lines. -/
  lines : List (List Char)
  /-- Whether any line is not as it was. -/
  changed : Bool
  /-- What is reported about statements that stay as they are. -/
  diagnostics : List Diagnostic

namespace FormattedDocument

/-- The text of a document; every line has an end. -/
def text (d : FormattedDocument) : List Char := d.lines.flatMap (· ++ ['\n'])

end FormattedDocument

namespace Document

/-- The lines of a document from the line at an index on, where the given paragraphs are still to
come, with what is reported about these. -/
def formatFrom (d : Document) (next : Nat) : List VuParagraph → List (List Char) × List Diagnostic
  | [] => (d.lines.drop next, [])
  | p :: ps =>
    let between := (d.lines.take (p.line - 1)).drop next
    let (rest, ds) := formatFrom d (p.line - 1 + p.lines.length) ps
    match p.formatted d.file with
    | .ok lines => (between ++ lines ++ rest, ds)
    | .error e => (between ++ p.lines ++ rest, e.diagnostics ++ ds)

/-- A document in its laid out form. -/
def format (d : Document) : FormattedDocument :=
  let (lines, diagnostics) := d.formatFrom 0 d.paragraphs
  ⟨lines, lines != d.lines, diagnostics⟩

end Document
end ValidUsage
