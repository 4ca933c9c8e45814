import ValidUsage.Syntax.Walk
import ValidUsage.Text.Blank
import ValidUsage.Text.Lines
import ValidUsage.Text.Search

/-!
# Keeping comments

Comments are not part of the grammar of statements. A line with nothing but a comment, outside of
brackets, is turned into a call with the text of the comment at the same indentation; so comments
are statements of their own and take part in layout.
-/

namespace ValidUsage.Paragraph

/-- The number of open brackets after a line, when `depth` are open before it. Brackets in strings
and after a `#` do not count, nor does a closing bracket that closes none. -/
def bracketDepth (quote : Option Char) (depth : Nat) : List Char → Nat
  | [] => depth
  | c :: r =>
    match quote with
    | some q =>
      if c = '\\' then
        match r with
        | [] => depth
        | _ :: r' => bracketDepth quote depth r'
      else if c = q then bracketDepth none depth r
      else bracketDepth quote depth r
    | none =>
      if c = '\'' ∨ c = '"' then bracketDepth (some c) depth r
      else if c = '#' then depth
      else if c = '(' ∨ c = '[' ∨ c = '{' then bracketDepth none (depth + 1) r
      else if c = ')' ∨ c = ']' ∨ c = '}' then bracketDepth none (depth - 1) r
      else bracketDepth none depth r

/-- The text of a comment between double quotes. -/
def quoteComment (text : List Char) : List Char :=
  text.flatMap fun c => if c = '\\' ∨ c = '"' then ['\\', c] else [c]

/-- The text of a comment line after its indentation: without the leading `#`s and blanks. -/
def commentText (line : List Char) : List Char := Text.trim (line.dropWhile (· = '#'))

/-- A line outside of brackets, with its comment turned into a call. -/
def keepComment? (line : List Char) : Option (List Char) :=
  match Text.trimStart line with
  | '#' :: r =>
    some (Text.lead line ++ commentName.toList ++
      (['(', '"'] ++ quoteComment (commentText ('#' :: r)) ++ ['"', ')']))
  | _ => none

/-- Lines with their comments turned into calls, when `depth` brackets are open before them. -/
def keepCommentLines (depth : Nat) : List (List Char) → List (List Char)
  | [] => []
  | line :: lines =>
    match depth, keepComment? line with
    | 0, some kept => kept :: keepCommentLines 0 lines
    | _, _ => line :: keepCommentLines (bracketDepth none depth line) lines

/-- A text with its comment lines turned into calls. -/
def keepComments (s : List Char) : List Char :=
  Text.join ['\n'] (keepCommentLines 0 (Text.splitOn '\n' s))

end ValidUsage.Paragraph
