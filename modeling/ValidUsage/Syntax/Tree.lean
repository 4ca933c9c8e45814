import ValidUsage.Number.Binary64

/-!
# The trees of statements

A codified statement is a block: a list of statements, some of which hold blocks of their own. The
trees are wider than the statement language, so that a construct outside of it can be read and then
refused with its own message. Every node carries the position at which it starts.

Equality of trees is decidable; `Expr.same` and `Stmt.same` decide it.
-/

namespace ValidUsage

/-- A position in the text of a statement: line and column, both counted from one. A node that does
not come from text stands at `0, 0`.

The numbers are not bounded here. Kept in 32 bits they would be other ones only for a text with
`2 ^ 32` lines, or with a line of so many characters, which is longer than 4 GiB. -/
structure Pos where
  /-- The line. -/
  line : Nat
  /-- The column, in characters. -/
  col : Nat
  deriving DecidableEq, Repr

/-- The position of a node that does not come from text. -/
def Pos.none : Pos := ⟨0, 0⟩

/-- Operators that join conditions. -/
inductive BoolOp where
  | and
  | or
  deriving DecidableEq, Repr

/-- Operators of arithmetic and on bits. -/
inductive BinOp where
  | add
  | sub
  | mult
  | div
  | floorDiv
  | mod
  | pow
  | matMult
  | lShift
  | rShift
  | bitOr
  | bitXor
  | bitAnd
  deriving DecidableEq, Repr

/-- Operators in front of one operand. -/
inductive UnaryOp where
  | not
  | invert
  | plus
  | minus
  deriving DecidableEq, Repr

/-- Operators of comparisons. -/
inductive CmpOp where
  | eq
  | notEq
  | lt
  | ltE
  | gt
  | gtE
  | is
  | isNot
  | isIn
  | notIn
  deriving DecidableEq, Repr

/-- Literal values. -/
inductive Constant where
  /-- `True` or `False`. -/
  | bool (value : Bool)
  /-- A whole number, below `2 ^ 64` if it comes from text. -/
  | int (value : Nat)
  /-- A number with a fraction or an exponent. -/
  | float (value : Binary64)
  /-- A quoted text. -/
  | str (value : String)
  /-- `None`. -/
  | none
  deriving DecidableEq, Repr

/-- Expressions. -/
inductive Expr where
  /-- Conditions joined by one operator, such as `a and b and c`. -/
  | boolOp (pos : Pos) (op : BoolOp) (values : List Expr)
  /-- An operation on two operands. -/
  | binary (pos : Pos) (left : Expr) (op : BinOp) (right : Expr)
  /-- An operation on one operand. -/
  | unary (pos : Pos) (op : UnaryOp) (operand : Expr)
  /-- A chain of comparisons: the first operand, then an operator for each further operand. -/
  | compare (pos : Pos) (left : Expr) (ops : List CmpOp) (comparators : List Expr)
  /-- A call of a predicate, by name or on a receiver. -/
  | call (pos : Pos) (func : Expr) (args : List Expr)
  /-- A member of a value. -/
  | member (pos : Pos) (value : Expr) (attr : String)
  /-- An element of an array. -/
  | subscript (pos : Pos) (value index : Expr)
  /-- The choice `body if test else orelse`. -/
  | ifExp (pos : Pos) (test body orelse : Expr)
  /-- A name. -/
  | name (pos : Pos) (id : String)
  /-- A literal. -/
  | const (pos : Pos) (value : Constant)
  /-- Values separated by commas. -/
  | tuple (pos : Pos) (elts : List Expr)
  /-- Values in brackets. -/
  | list (pos : Pos) (elts : List Expr)
  /-- The bounds `lower:upper:step` of a subscript. -/
  | slice (pos : Pos) (lower upper step : Option Expr)

/-- Statements. -/
inductive Stmt where
  /-- `a = b`; every target stands left of a `=` of its own. -/
  | assign (pos : Pos) (targets : List Expr) (value : Expr)
  /-- `a += b`. -/
  | update (pos : Pos) (target : Expr) (op : BinOp) (value : Expr)
  /-- `if` with its `else`; an `elif` is an `else` block of one `if`. -/
  | ifElse (pos : Pos) (test : Expr) (body orelse : List Stmt)
  /-- `for target in iter` with its `else`. -/
  | forEach (pos : Pos) (target iter : Expr) (body orelse : List Stmt)
  /-- `while` with its `else`. -/
  | whileDo (pos : Pos) (test : Expr) (body orelse : List Stmt)
  /-- An expression that stands as a statement, usually a requirement or a comment. -/
  | expr (pos : Pos) (value : Expr)
  /-- `pass`. -/
  | pass (pos : Pos)
  /-- `break`. -/
  | breakOut (pos : Pos)
  /-- `continue`. -/
  | nextRound (pos : Pos)

/-- A block of statements; a whole statement of valid usage is one. -/
abbrev Block := List Stmt

namespace Expr

/-- The position at which an expression starts. -/
def pos : Expr → Pos
  | boolOp p _ _ | binary p _ _ _ | unary p _ _ | compare p _ _ _ | call p _ _ | member p _ _
  | subscript p _ _ | ifExp p _ _ _ | name p _ | const p _ | tuple p _ | list p _
  | slice p _ _ _ => p

/-- A truth value as an expression. -/
def ofBool (pos : Pos) (b : Bool) : Expr := const pos (.bool b)

/-- The name, if the expression is one. -/
def name? : Expr → Option String
  | name _ id => some id
  | _ => none

/-- The truth value, if the expression is a literal one. -/
def bool? : Expr → Option Bool
  | const _ (.bool b) => some b
  | _ => none

/-- The whole number, if the expression is a literal one. -/
def int? : Expr → Option Nat
  | const _ (.int n) => some n
  | _ => none

/-- The name that is called, if the expression is a call by name. -/
def callName? : Expr → Option String
  | call _ func _ => func.name?
  | _ => none

mutual

/-- Whether two expressions are the same, positions included. -/
def same : Expr → Expr → Bool
  | boolOp p o vs, boolOp p' o' vs' => p == p' && o == o' && sameList vs vs'
  | binary p l o r, binary p' l' o' r' => p == p' && same l l' && o == o' && same r r'
  | unary p o e, unary p' o' e' => p == p' && o == o' && same e e'
  | compare p l os cs, compare p' l' os' cs' =>
    p == p' && same l l' && os == os' && sameList cs cs'
  | call p f as, call p' f' as' => p == p' && same f f' && sameList as as'
  | member p v a, member p' v' a' => p == p' && same v v' && a == a'
  | subscript p v i, subscript p' v' i' => p == p' && same v v' && same i i'
  | ifExp p t b o, ifExp p' t' b' o' => p == p' && same t t' && same b b' && same o o'
  | name p i, name p' i' => p == p' && i == i'
  | const p c, const p' c' => p == p' && c == c'
  | tuple p es, tuple p' es' => p == p' && sameList es es'
  | list p es, list p' es' => p == p' && sameList es es'
  | slice p l u s, slice p' l' u' s' =>
    p == p' && sameOption l l' && sameOption u u' && sameOption s s'
  | _, _ => false

/-- Whether two lists hold the same expressions. -/
def sameList : List Expr → List Expr → Bool
  | [], [] => true
  | e :: es, e' :: es' => same e e' && sameList es es'
  | _, _ => false

/-- Whether two bounds of a slice are both absent or the same. -/
def sameOption : Option Expr → Option Expr → Bool
  | none, none => true
  | some e, some e' => same e e'
  | _, _ => false

end

mutual

/-- `same` decides equality. -/
theorem same_iff : ∀ e e' : Expr, same e e' = true ↔ e = e'
  | boolOp p o vs, e' => by cases e' <;> simp [same, sameList_iff vs, and_assoc]
  | binary p l o r, e' => by cases e' <;> simp [same, same_iff l, same_iff r, and_assoc]
  | unary p o e, e' => by cases e' <;> simp [same, same_iff e, and_assoc]
  | compare p l os cs, e' => by
    cases e' <;> simp [same, same_iff l, sameList_iff cs, and_assoc]
  | call p f as, e' => by cases e' <;> simp [same, same_iff f, sameList_iff as, and_assoc]
  | member p v a, e' => by cases e' <;> simp [same, same_iff v, and_assoc]
  | subscript p v i, e' => by cases e' <;> simp [same, same_iff v, same_iff i, and_assoc]
  | ifExp p t b o, e' => by
    cases e' <;> simp [same, same_iff t, same_iff b, same_iff o, and_assoc]
  | name p i, e' => by cases e' <;> simp [same]
  | const p c, e' => by cases e' <;> simp [same]
  | tuple p es, e' => by cases e' <;> simp [same, sameList_iff es]
  | list p es, e' => by cases e' <;> simp [same, sameList_iff es]
  | slice p l u s, e' => by
    cases e' <;> simp [same, sameOption_iff l, sameOption_iff u, sameOption_iff s, and_assoc]

/-- `sameList` decides equality. -/
theorem sameList_iff : ∀ es es' : List Expr, sameList es es' = true ↔ es = es'
  | [], es' => by cases es' <;> simp [sameList]
  | e :: es, es' => by cases es' <;> simp [sameList, same_iff e, sameList_iff es]

/-- `sameOption` decides equality. -/
theorem sameOption_iff : ∀ o o' : Option Expr, sameOption o o' = true ↔ o = o'
  | none, o' => by cases o' <;> simp [sameOption]
  | some e, o' => by cases o' <;> simp [sameOption, same_iff e]

end

instance : DecidableEq Expr := fun e e' => decidable_of_iff _ (same_iff e e')

end Expr

namespace Stmt

/-- The position at which a statement starts. -/
def pos : Stmt → Pos
  | assign p _ _ | update p _ _ _ | ifElse p _ _ _ | forEach p _ _ _ _ | whileDo p _ _ _ | expr p _
  | pass p | breakOut p | nextRound p => p

mutual

/-- Whether two statements are the same, positions included. -/
def same : Stmt → Stmt → Bool
  | assign p ts v, assign p' ts' v' => p == p' && ts == ts' && v == v'
  | update p t o v, update p' t' o' v' => p == p' && t == t' && o == o' && v == v'
  | ifElse p t b o, ifElse p' t' b' o' => p == p' && t == t' && sameBlock b b' && sameBlock o o'
  | forEach p t i b o, forEach p' t' i' b' o' =>
    p == p' && t == t' && i == i' && sameBlock b b' && sameBlock o o'
  | whileDo p t b o, whileDo p' t' b' o' =>
    p == p' && t == t' && sameBlock b b' && sameBlock o o'
  | expr p v, expr p' v' => p == p' && v == v'
  | pass p, pass p' => p == p'
  | breakOut p, breakOut p' => p == p'
  | nextRound p, nextRound p' => p == p'
  | _, _ => false

/-- Whether two blocks hold the same statements. -/
def sameBlock : Block → Block → Bool
  | [], [] => true
  | s :: ss, s' :: ss' => same s s' && sameBlock ss ss'
  | _, _ => false

end

mutual

/-- `same` decides equality. -/
theorem same_iff : ∀ s s' : Stmt, same s s' = true ↔ s = s'
  | assign p ts v, s' => by cases s' <;> simp [same, and_assoc]
  | update p t o v, s' => by cases s' <;> simp [same, and_assoc]
  | ifElse p t b o, s' => by
    cases s' <;> simp [same, sameBlock_iff b, sameBlock_iff o, and_assoc]
  | forEach p t i b o, s' => by
    cases s' <;> simp [same, sameBlock_iff b, sameBlock_iff o, and_assoc]
  | whileDo p t b o, s' => by
    cases s' <;> simp [same, sameBlock_iff b, sameBlock_iff o, and_assoc]
  | expr p v, s' => by cases s' <;> simp [same]
  | pass p, s' => by cases s' <;> simp [same]
  | breakOut p, s' => by cases s' <;> simp [same]
  | nextRound p, s' => by cases s' <;> simp [same]

/-- `sameBlock` decides equality. -/
theorem sameBlock_iff : ∀ b b' : Block, sameBlock b b' = true ↔ b = b'
  | [], b' => by cases b' <;> simp [sameBlock]
  | s :: ss, b' => by cases b' <;> simp [sameBlock, same_iff s, sameBlock_iff ss]

end

instance : DecidableEq Stmt := fun s s' => decidable_of_iff _ (same_iff s s')

end Stmt
end ValidUsage
