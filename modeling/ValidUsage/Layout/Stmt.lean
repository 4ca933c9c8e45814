import ValidUsage.Layout.Expr
import ValidUsage.Syntax.Walk

/-!
# The layout of statements

A statement starts a line; the statements of a block start theirs two columns further in than its
head. An `else` that holds nothing but an `if` is joined with it to an `elif`, after an `if` only.
-/

namespace ValidUsage

/-- How many columns further in the statements of a block start. -/
def blockIndent : Nat := 2

namespace Stmt

mutual

/-- The marks of a statement on a line that is indented by `indent`. -/
def layout : Stmt → Nat → List Mark
  | assign _ targets value, indent =>
    targets.flatMap (fun t => t.layout indent ++ [.blank, .operator "=", .blank]) ++
      value.layout indent
  | update _ target op value, indent =>
    target.layout indent ++
      .blank :: .operator (op.spelling ++ "=") :: .blank :: value.layout indent
  | ifElse _ test body orelse, indent =>
    .keyword "if" :: .blank :: (test.layout indent ++ .colon ::
      (layoutBlock body (indent + blockIndent) ++ layoutElse true orelse indent))
  | forEach _ target iter body orelse, indent =>
    .keyword "for" :: .blank :: (target.layout indent ++
      .blank :: .operator "in" :: .blank :: (iter.layout indent ++ .colon ::
        (layoutBlock body (indent + blockIndent) ++ layoutElse false orelse indent)))
  | whileDo _ test body orelse, indent =>
    .keyword "while" :: .blank :: (test.layout indent ++ .colon ::
      (layoutBlock body (indent + blockIndent) ++ layoutElse false orelse indent))
  | expr p value, indent =>
    match (expr p value).comment? with
    | some text => [.comment text]
    | none => value.layout indent
  | pass _, _ => [.keyword "pass"]
  | breakOut _, _ => [.keyword "break"]
  | nextRound _, _ => [.keyword "continue"]

/-- The marks of the statements of a block, each after the end of a line. -/
def layoutBlock : Block → Nat → List Mark
  | [], _ => []
  | s :: ss, indent => .lineBreak indent :: (layout s indent ++ layoutBlock ss indent)

/-- The marks of an `else` with its block, if there is one. -/
def layoutElse (chained : Bool) : Block → Nat → List Mark
  | [], _ => []
  | [ifElse p test body orelse], indent =>
    if chained then
      .lineBreak indent :: .keyword "elif" :: .blank :: (test.layout indent ++ .colon ::
        (layoutBlock body (indent + blockIndent) ++ layoutElse true orelse indent))
    else
      .lineBreak indent :: .keyword "else" :: .colon :: .lineBreak (indent + blockIndent) ::
        layout (ifElse p test body orelse) (indent + blockIndent)
  | s :: ss, indent =>
    .lineBreak indent :: .keyword "else" :: .colon ::
      .lineBreak (indent + blockIndent) ::
        (layout s (indent + blockIndent) ++ layoutBlock ss (indent + blockIndent))

end

end Stmt

/-- The marks of a whole statement of valid usage. -/
def Block.layout : Block → List Mark
  | [] => []
  | s :: ss => s.layout 0 ++ Stmt.layoutBlock ss 0

end ValidUsage
