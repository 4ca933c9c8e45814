import ValidUsage.Syntax.Tree

/-!
# Tokens, and why a text cannot be read

The text of a statement is a sequence of tokens. Besides names, numbers, strings and operators there
are layout tokens: the end of a line, a deeper and a shallower indentation, and the end of the text.
-/

namespace ValidUsage

/-- What a token is. -/
inductive TokenKind where
  /-- A name or a keyword. -/
  | name
  /-- A number. -/
  | number
  /-- A quoted text, its quotes included. -/
  | str
  /-- An operator or a delimiter. -/
  | op
  /-- The end of a line that holds something. -/
  | newline
  /-- The indentation grows. -/
  | indent
  /-- The indentation falls back by one level. -/
  | dedent
  /-- The end of the text. -/
  | endMarker
  deriving DecidableEq, Repr

/-- Whether tokens of a kind are layout: they have no text of their own. -/
def TokenKind.isLayout : TokenKind → Bool
  | .newline | .indent | .dedent | .endMarker => true
  | _ => false

/-- A piece of the text of a statement. -/
structure Token where
  /-- What the token is. -/
  kind : TokenKind
  /-- Its text; layout tokens have none. -/
  text : String
  /-- Where it starts. -/
  pos : Pos
  deriving DecidableEq, Repr

/-- Whether a token is the given operator or word. -/
def Token.is (t : Token) (text : String) : Bool :=
  (t.kind == .op || t.kind == .name) && t.text == text

/-- Why a text cannot be read. -/
inductive SyntaxFault where
  /-- Something other than the end of the line follows a backslash. -/
  | afterBackslash
  /-- A string is not closed on its line. -/
  | openString
  /-- A letter follows the digits of a number. -/
  | openNumber
  /-- A character that begins no token. -/
  | character (c : Char)
  /-- A closing bracket without an opening one. -/
  | unmatched (c : Char)
  /-- The text ends inside of brackets. -/
  | openBracket
  /-- A line falls back to an indentation that no open block has. -/
  | unindent
  /-- Another operator or word has to stand here. -/
  | expected (text : String)
  /-- A line is indented without need. -/
  | indent
  /-- The line ends too early. -/
  | lineEnd
  /-- A token cannot stand here. -/
  | token
  /-- A block has to be indented. -/
  | block
  /-- Digits that write no number, or too large a number. -/
  | number
  deriving DecidableEq, Repr

/-- A code point in upper-case hexadecimal digits, at least four of them. -/
def hexCodePoint (c : Char) : String :=
  let ds := (Nat.toDigits 16 c.toNat).map Char.toUpper
  String.ofList (List.replicate (4 - ds.length) '0' ++ ds)

/-- The message for a fault. -/
def SyntaxFault.message : SyntaxFault → String
  | .afterBackslash => "unexpected character after line continuation character"
  | .openString => "unterminated string literal"
  | .openNumber => "invalid decimal literal"
  | .character c => "invalid character '" ++ c.toString ++ "' (U+" ++ hexCodePoint c ++ ")"
  | .unmatched c => "unmatched '" ++ c.toString ++ "'"
  | .openBracket => "unexpected EOF while parsing"
  | .unindent => "unindent does not match any outer indentation level"
  | .expected text => "expected '" ++ text ++ "'"
  | .indent => "unexpected indent"
  | .lineEnd => "invalid syntax: unexpected end of line"
  | .token => "invalid syntax"
  | .block => "expected an indented block"
  | .number => "invalid numeric literal"

/-- A fault at a position of the text. -/
structure SyntaxError where
  /-- What is wrong. -/
  fault : SyntaxFault
  /-- Where. -/
  pos : Pos
  deriving DecidableEq, Repr

namespace SyntaxError

/-- The message, without the position. -/
def message (e : SyntaxError) : String := e.fault.message

/-- The message with the position. -/
def display (e : SyntaxError) : String :=
  e.message ++ " (line " ++ toString e.pos.line ++ ", column " ++ toString e.pos.col ++ ")"

end SyntaxError
end ValidUsage
