import ValidUsage.Diagnostic.Basic
import ValidUsage.Layout.Source
import ValidUsage.Layout.Markup
import ValidUsage.Paragraph.Comment
import ValidUsage.Prose.Bullet
import ValidUsage.Syntax.Parser

/-!
# Renderings and their check

A statement is rendered as source text, as markup or as prose. Source text and markup are read
again before they are given out: they must be the statement that was rendered, positions and
comments aside. Prose cannot be read.
-/

namespace ValidUsage

/-- The forms in which statements are rendered. -/
inductive Rendering where
  /-- Text as it is written by hand. -/
  | source
  /-- Markup of the built documentation. -/
  | output
  /-- English prose. -/
  | text
  deriving DecidableEq, Repr

namespace Rendering

/-- The word for a rendering. -/
def word : Rendering → String
  | .source => "source"
  | .output => "output"
  | .text => "text"

/-- Every rendering. -/
def all : List Rendering := [.source, .output, .text]

/-- The rendering of a word. -/
def ofWord? (word : String) : Option Rendering := all.find? (·.word == word)

end Rendering

/-- What is wrong with a text that should be the rendering of a statement. -/
inductive RoundTripFault where
  /-- It cannot be read. -/
  | unreadable (error : SyntaxError)
  /-- It is another statement. -/
  | different
  deriving DecidableEq, Repr

/-- What is wrong, in words. -/
def RoundTripFault.message : RoundTripFault → String
  | unreadable e => "re-parse failed: " ++ e.display
  | different => "re-parsed VU differs from the original"

/-- A rendering that is not that of its statement. -/
structure RoundTripError where
  /-- The form of the rendering. -/
  rendering : Rendering
  /-- The rendered text. -/
  rendered : List Char
  /-- What is wrong with it. -/
  fault : RoundTripFault
  deriving DecidableEq, Repr

namespace RoundTripError

/-- The message for a rendering that fails its check. -/
def message (e : RoundTripError) : String :=
  e.rendering.word ++ " formatter output does not round-trip: " ++ e.fault.message

/-- The diagnostic for a rendering that fails its check. -/
def toDiagnostic (e : RoundTripError) : Diagnostic where
  id := Code.internalRoundTrip.id
  severity := .error
  message := e.message
  fragment := some (String.ofList e.rendered)
  context := some (.ofList [("style", e.rendering.word)])

end RoundTripError

namespace Block

/-- The statement of a text whose comments are kept. -/
def ofText (s : List Char) : Except SyntaxError Block := parse (Paragraph.keepComments s)

/-- The source text that a rendered text stands for, unless it is prose. -/
def readable? (rendered : List Char) : Rendering → Option (List Char)
  | .source => some rendered
  | .output => some (Markup.plain rendered)
  | .text => none

/-- What is wrong with a text as a rendering of a statement. -/
def fault? (b : Block) (rendered : List Char) (r : Rendering) : Option RoundTripFault :=
  (readable? rendered r).bind fun s =>
    match ofText s with
    | .error e => some (.unreadable e)
    | .ok b' => if isSame b' b then none else some .different

/-- The text, if it is a rendering of the statement. -/
def checked (b : Block) (rendered : List Char) (r : Rendering) :
    Except RoundTripError (List Char) :=
  match fault? b rendered r with
  | some fault => .error ⟨r, rendered, fault⟩
  | none => .ok rendered

/-- The text of a statement about a subject, before it is checked. -/
def rendered (s : Subject) (b : Block) : Rendering → List Char
  | .source => b.source
  | .output => Markup.render s b
  | .text => Prose.render s b

/-- The rendering of a statement about a subject. -/
def render (s : Subject) (b : Block) (r : Rendering) : Except RoundTripError (List Char) :=
  checked b (rendered s b r) r

end Block
end ValidUsage
