import ValidUsage.Syntax.Tree

/-!
# Comments, and walking over trees

A comment that is kept in a tree is a statement that calls `commentName` with the text of the
comment. Walking visits an expression before its parts, and the parts from left to right.

The bare form of a block has no comments and no positions; two statements of valid usage are the
same program when their bare forms are equal, except that a zero may have another sign.
-/

namespace ValidUsage

/-- The name that a kept comment calls. -/
def commentName : String := "__comment"

namespace Stmt

/-- The text of a comment, if the statement is one. -/
def comment? : Stmt → Option String
  | expr _ (.call _ (.name _ id) [.const _ (.str text)]) =>
    if id = commentName then some text else none
  | _ => none

/-- Whether a statement is a comment. -/
def isComment (s : Stmt) : Bool := s.comment?.isSome

/-- A comment is a call that stands for it. -/
theorem eq_call_of_comment? {p : Pos} {value : Expr} {text : String}
    (h : (expr p value).comment? = some text) : ∃ p₁ p₂ p₃,
      value = .call p₁ (.name p₂ commentName) [.const p₃ (.str text)] := by
  unfold comment? at h
  split at h
  next q q₁ q₂ id q₃ text' he =>
    split at h
    next hid =>
      obtain rfl : text' = text := Option.some.inj h
      obtain ⟨rfl, rfl⟩ := Stmt.expr.inj he
      exact ⟨q₁, q₂, q₃, by rw [hid]⟩
    next => exact absurd h nofun
  next => exact absurd h nofun

end Stmt

namespace Expr

mutual

/-- The expression and all its parts. -/
def walk : Expr → List Expr
  | e@(boolOp _ _ values) => e :: walkList values
  | e@(binary _ left _ right) => e :: (walk left ++ walk right)
  | e@(unary _ _ operand) => e :: walk operand
  | e@(compare _ left _ comparators) => e :: (walk left ++ walkList comparators)
  | e@(call _ func args) => e :: (walk func ++ walkList args)
  | e@(member _ value _) => e :: walk value
  | e@(subscript _ value index) => e :: (walk value ++ walk index)
  | e@(ifExp _ test body orelse) => e :: (walk test ++ (walk body ++ walk orelse))
  | e@(name _ _) => [e]
  | e@(const _ _) => [e]
  | e@(tuple _ elts) => e :: walkList elts
  | e@(list _ elts) => e :: walkList elts
  | e@(slice _ lower upper step) => e :: (walkOption lower ++ (walkOption upper ++ walkOption step))

/-- The parts of every expression of a list. -/
def walkList : List Expr → List Expr
  | [] => []
  | e :: es => walk e ++ walkList es

/-- The parts of a bound of a slice. -/
def walkOption : Option Expr → List Expr
  | none => []
  | some e => walk e

end

mutual

/-- The expression without positions, with every literal replaced by its image. -/
def bareBy (f : Constant → Constant) : Expr → Expr
  | boolOp _ op values => boolOp .none op (bareListBy f values)
  | binary _ left op right => binary .none (bareBy f left) op (bareBy f right)
  | unary _ op operand => unary .none op (bareBy f operand)
  | compare _ left ops comparators =>
    compare .none (bareBy f left) ops (bareListBy f comparators)
  | call _ func args => call .none (bareBy f func) (bareListBy f args)
  | member _ value attr => member .none (bareBy f value) attr
  | subscript _ value index => subscript .none (bareBy f value) (bareBy f index)
  | ifExp _ test body orelse => ifExp .none (bareBy f test) (bareBy f body) (bareBy f orelse)
  | name _ id => name .none id
  | const _ value => const .none (f value)
  | tuple _ elts => tuple .none (bareListBy f elts)
  | list _ elts => list .none (bareListBy f elts)
  | slice _ lower upper step =>
    slice .none (bareOptionBy f lower) (bareOptionBy f upper) (bareOptionBy f step)

/-- Every expression of a list without positions. -/
def bareListBy (f : Constant → Constant) : List Expr → List Expr
  | [] => []
  | e :: es => bareBy f e :: bareListBy f es

/-- A bound of a slice without positions. -/
def bareOptionBy (f : Constant → Constant) : Option Expr → Option Expr
  | none => none
  | some e => some (bareBy f e)

end

end Expr

namespace Stmt

mutual

/-- All expressions of a statement and of its blocks, with their parts. -/
def walk : Stmt → List Expr
  | assign _ targets value => Expr.walkList targets ++ value.walk
  | update _ target _ value => target.walk ++ value.walk
  | ifElse _ test body orelse => test.walk ++ (walkBlock body ++ walkBlock orelse)
  | forEach _ target iter body orelse =>
    target.walk ++ (iter.walk ++ (walkBlock body ++ walkBlock orelse))
  | whileDo _ test body orelse => test.walk ++ (walkBlock body ++ walkBlock orelse)
  | expr _ value => value.walk
  | pass _ => []
  | breakOut _ => []
  | nextRound _ => []

/-- All expressions of the statements of a block. -/
def walkBlock : Block → List Expr
  | [] => []
  | s :: ss => walk s ++ walkBlock ss

end

mutual

/-- The statement without positions and without the comments of its blocks, with every literal
replaced by its image. -/
def bareBy (f : Constant → Constant) : Stmt → Stmt
  | assign _ targets value => assign .none (Expr.bareListBy f targets) (value.bareBy f)
  | update _ target op value => update .none (target.bareBy f) op (value.bareBy f)
  | ifElse _ test body orelse =>
    ifElse .none (test.bareBy f) (bareBlockBy f body) (bareBlockBy f orelse)
  | forEach _ target iter body orelse =>
    forEach .none (target.bareBy f) (iter.bareBy f) (bareBlockBy f body) (bareBlockBy f orelse)
  | whileDo _ test body orelse =>
    whileDo .none (test.bareBy f) (bareBlockBy f body) (bareBlockBy f orelse)
  | expr _ value => expr .none (value.bareBy f)
  | pass _ => pass .none
  | breakOut _ => breakOut .none
  | nextRound _ => nextRound .none

/-- The block without positions and comments, with every literal replaced by its image. -/
def bareBlockBy (f : Constant → Constant) : Block → Block
  | [] => []
  | s :: ss => if s.isComment then bareBlockBy f ss else bareBy f s :: bareBlockBy f ss

end

end Stmt

/-- A literal with a negative zero made positive; the two are one number. -/
def Constant.unsigned : Constant → Constant
  | .float x => .float x.unsignZero
  | c => c

namespace Block

/-- All expressions of a block, with their parts. -/
def walk (b : Block) : List Expr := Stmt.walkBlock b

/-- The block without positions and comments. -/
def bare (b : Block) : Block := Stmt.bareBlockBy id b

/-- Whether two blocks are the same program: they differ in positions, comments and signs of zero
only. -/
def isSame (b b' : Block) : Bool :=
  Stmt.bareBlockBy Constant.unsigned b == Stmt.bareBlockBy Constant.unsigned b'

end Block
end ValidUsage
