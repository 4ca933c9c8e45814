import ValidUsage.Prose.Phrase

/-!
# Statements in prose

A statement becomes a list of nested bullets. Conditions that are joined stand below a heading that
says whether all or any of them hold. Under a negation the two change places, so that what is listed
is always what holds.
-/

namespace ValidUsage

/-- What a bullet says. -/
inductive BulletContent where
  /-- All or any of the bullets one level further in hold, which an operator joins. -/
  | heading (before : String) (phrasing : Phrasing) (op : BoolOp)
  /-- A condition holds or does not. -/
  | fact (leaf : Expr) (phrase : Phrase)
  /-- Something that is not a condition. -/
  | note (text : String)

/-- A bullet at a depth, counted from one. -/
structure Bullet where
  /-- How deep it is nested. -/
  depth : Nat
  /-- What it says. -/
  content : BulletContent

/-- The words of a bullet. -/
def BulletContent.words : BulletContent → String
  | heading before p op => before ++ p.quantifier op
  | fact _ phrase => phrase.words
  | note text => text

/-- A bullet as a line of text. -/
def Bullet.line (b : Bullet) : List Char :=
  List.replicate b.depth '*' ++ ' ' :: b.content.words.toList

namespace Prose

mutual

/-- The bullets of a condition. -/
def condition (s : Subject) : Expr → Nat → Phrasing → List Bullet
  | .unary _ .not operand, depth, p => condition s operand depth p.negated
  | .boolOp _ op values, depth, p =>
    ⟨depth, .heading "" p op⟩ :: conditions s values (depth + 1) p.relaxed
  | e, depth, p => [⟨depth, .fact e (phrase s p e)⟩]

/-- The bullets of conditions, one after the other. -/
def conditions (s : Subject) : List Expr → Nat → Phrasing → List Bullet
  | [], _, _ => []
  | e :: es, depth, p => condition s e depth p ++ conditions s es depth p

end

/-- A condition below its negations, and whether it is expected to hold when the whole is. -/
def peelNot : Expr → Bool → Expr × Bool
  | .unary _ .not operand, expected => peelNot operand (!expected)
  | e, expected => (e, expected)

/-- The bullets of the test of an `if`. -/
def test (s : Subject) (e : Expr) (depth : Nat) : List Bullet :=
  match peelNot e true with
  | (.boolOp _ op values, expected) =>
    ⟨depth, .heading "if " ⟨expected, false⟩ op⟩ ::
      conditions s values (depth + 1) ⟨expected, false⟩
  | (e, expected) =>
    ⟨depth, .note ("if the following is " ++ (if expected then "true" else "false") ++ ":")⟩ ::
      condition s e (depth + 1) .test

/-- The condition that an expression requires, if it is a requirement. -/
def required? : Expr → Option Expr
  | .call _ (.name _ id) [e] => if id = Predicate.require.name then some e else none
  | _ => none

mutual

/-- The bullets of a statement. -/
def statement (s : Subject) : Stmt → Nat → List Bullet
  | .assign _ [target] value, depth =>
    [⟨depth, .note ("let " ++ operand s target ++ " be " ++ operand s value)⟩]
  | .ifElse _ e body orelse, depth =>
    test s e depth ++ ⟨depth, .note "then:"⟩ :: (statements s body (depth + 1) ++
      (if orelse.isEmpty then []
      else ⟨depth, .note "otherwise:"⟩ :: statements s orelse (depth + 1)))
  | .forEach _ target iter body _, depth =>
    ⟨depth, .note ("for each element " ++ operand s target ++ " of " ++ operand s iter ++ ":")⟩ ::
      statements s body (depth + 1)
  | .expr p value, depth =>
    match (Stmt.expr p value).comment? with
    | some text => [⟨depth, .note ("_" ++ text ++ "_")⟩]
    | none => match required? value with
      | some e => condition s e depth .demand
      | none => [⟨depth, .note (operand s value)⟩]
  | other, depth => [⟨depth, .note (code other.source)⟩]

/-- The bullets of the statements of a block. -/
def statements (s : Subject) : Block → Nat → List Bullet
  | [], _ => []
  | x :: xs, depth => statement s x depth ++ statements s xs depth

end

/-- A whole statement of valid usage in prose. -/
def render (s : Subject) (b : Block) : List Char :=
  Text.join ['\n'] ((statements s b 1).map Bullet.line)

end Prose
end ValidUsage
