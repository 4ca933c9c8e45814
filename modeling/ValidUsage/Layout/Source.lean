import ValidUsage.Layout.Stmt

/-!
# Source text

The style in which statements are written by hand: every mark is spelled as it is read, and a
comment follows a hash sign.
-/

namespace ValidUsage

/-- The spelling of a mark in source text. -/
def Mark.source : Mark → List Char
  | .plain t | .keyword t | .operator t | .number t | .literal t | .name t | .feature t
  | .predicate t => t.toList
  | .comment t => '#' :: ' ' :: t.toList
  | .openParen => ['(']
  | .closeParen => [')']
  | .openBracket => ['[']
  | .closeBracket => [']']
  | .lineBreak indent => '\n' :: List.replicate indent ' '

/-- The style of source text. -/
def Style.source : Style := ⟨"", "", Mark.source⟩

/-- The source text of an expression. -/
def Expr.source (e : Expr) : List Char := Style.source.text (e.layout 0)

/-- The source text of a statement. -/
def Stmt.source (s : Stmt) : List Char := Style.source.text (s.layout 0)

/-- The source text of a whole statement of valid usage. -/
def Block.source (b : Block) : List Char := Style.source.document b.layout

end ValidUsage
