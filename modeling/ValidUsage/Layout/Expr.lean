import ValidUsage.Layout.Mark
import ValidUsage.Number.Decimal
import ValidUsage.Predicate
import ValidUsage.Syntax.Literal
import ValidUsage.Syntax.Operators

/-!
# The layout of expressions

Parentheses stand where reading needs them. Conditions joined by `and` or `or` always have them, and
each condition after the first starts a line of its own, four columns further in; a call whose only
argument is such a condition borrows its parentheses.
-/

namespace ValidUsage

/-- How many columns further in a line inside of parentheses starts. -/
def parenIndent : Nat := 4

/-- Operators that add. -/
def BinOp.isAdditive (op : BinOp) : Bool := op == .add || op == .sub

/-- Operators that multiply and group from the left like one another. -/
def BinOp.isMultiplicative (op : BinOp) : Bool := op == .mult || op == .div || op == .mod

/-- The text of a literal, as a number or as a word. -/
def Constant.mark : Constant → Mark
  | .bool true => .literal "True"
  | .bool false => .literal "False"
  | .none => .literal "None"
  | .int n => .number (toString n)
  | .float x => .number (DecimalStyle.literal.write x)
  | .str s => .literal (Literal.quote s)

namespace Expr

/-- Whether an expression is a choice. -/
def isChoice : Expr → Bool
  | ifExp .. => true
  | _ => false

/-- Whether an expression needs parentheses as an operand of an operator. -/
def wrapsOperand : Expr → Bool
  | unary _ op _ => op == .not
  | binary .. | compare .. | ifExp .. | slice .. => true
  | _ => false

/-- Whether an expression needs parentheses in front of a member, an index or arguments. -/
def wrapsReceiver : Expr → Bool
  | unary .. | binary .. | compare .. | ifExp .. | slice .. | const .. => true
  | _ => false

/-- Whether an expression needs parentheses as an operand of a comparison. -/
def wrapsCompared : Expr → Bool
  | binary .. => false
  | e => e.wrapsOperand

/-- Whether an expression needs parentheses as the left operand of an operator. -/
def wrapsLeft (parent : BinOp) : Expr → Bool
  | binary _ _ op _ =>
    !(op.isAdditive && parent.isAdditive ||
      op.isMultiplicative && (parent.isAdditive || parent.isMultiplicative))
  | unary _ op _ => parent == .pow || op == .not
  | e => e.wrapsOperand

/-- Whether an expression needs parentheses as the right operand of an operator. -/
def wrapsRight (parent : BinOp) : Expr → Bool
  | binary _ _ op _ => !(op.isMultiplicative && parent.isAdditive)
  | e => e.wrapsOperand

/-- A layout in parentheses if it needs them. -/
def wrapped (wraps : Bool) (indent : Nat) (layout : Nat → List Mark) : List Mark :=
  if wraps then .openParen :: (layout (indent + parenIndent) ++ [.closeParen]) else layout indent

/-- The marks of an argument: a name is that of a feature if `toFeature`. -/
def named (toFeature : Bool) : List Mark → List Mark
  | [.name id] => if toFeature then [.feature id] else [.name id]
  | marks => marks

/-- Whether the arguments of a call bring their own parentheses. -/
def ownParens : List Expr → Bool
  | [boolOp ..] => true
  | _ => false

mutual

/-- The marks of an expression on a line that is indented by `indent`. -/
def layout : Expr → Nat → List Mark
  | boolOp _ op values, indent =>
    .openParen :: (operands op values (indent + parenIndent) ++ [.closeParen])
  | binary _ left op right, indent =>
    wrapped (left.wrapsLeft op) indent left.layout ++
      .blank :: .operator op.spelling :: .blank ::
        wrapped (right.wrapsRight op) indent right.layout
  | unary _ op operand, indent =>
    .operator op.spelling ::
      ((if op = .not then [.blank] else []) ++
        wrapped operand.wrapsOperand indent operand.layout)
  | compare _ left ops comparators, indent =>
    wrapped left.wrapsCompared indent left.layout ++ comparisons ops comparators indent
  | call _ (name _ id) args, indent =>
    (if (Predicate.ofName? id).isSome then .predicate id else .name id) ::
      wrapped (!ownParens args) indent
        (arguments (id == Predicate.isFeatureEnabled.name) args)
  | call _ (member _ value attr) args, indent =>
    wrapped value.wrapsReceiver indent value.layout ++
      .plain "." :: (if (Method.ofName? attr).isSome then .predicate attr else .plain attr) ::
        wrapped (!ownParens args) indent (arguments false args)
  | call _ func args, indent =>
    wrapped func.wrapsReceiver indent func.layout ++
      wrapped (!ownParens args) indent (arguments false args)
  | member _ value attr, indent =>
    wrapped value.wrapsReceiver indent value.layout ++ [.plain ".", .plain attr]
  | subscript _ value index, indent =>
    wrapped value.wrapsReceiver indent value.layout ++
      .openBracket :: (layout index indent ++ [.closeBracket])
  | ifExp _ test body orelse, indent =>
    wrapped body.isChoice indent body.layout ++
      .blank :: .keyword "if" :: .blank :: (wrapped test.isChoice indent test.layout ++
        .blank :: .keyword "else" :: .blank :: wrapped orelse.isChoice indent orelse.layout)
  | name _ id, _ => [.name id]
  | const _ value, _ => [value.mark]
  | tuple _ elts, indent =>
    .openParen :: (arguments false elts indent ++
      (if elts.length = 1 then [.plain ","] else []) ++ [.closeParen])
  | list _ elts, indent => .openBracket :: (arguments false elts indent ++ [.closeBracket])
  | slice _ lower upper step, indent =>
    bound [] lower indent ++ .colon :: (bound [] upper indent ++ bound [.colon] step indent)

/-- The marks of conditions, each but the first on a line of its own. -/
def operands (op : BoolOp) : List Expr → Nat → List Mark
  | [], _ => []
  | [e], indent => wrapped e.isChoice indent e.layout
  | e :: es, indent =>
    wrapped e.isChoice indent e.layout ++
      .blank :: .operator op.spelling :: .lineBreak indent :: operands op es indent

/-- The marks of the operators of a comparison with the operands behind them. -/
def comparisons : List CmpOp → List Expr → Nat → List Mark
  | op :: ops, e :: es, indent =>
    .blank :: .operator op.spelling :: .blank ::
      (wrapped e.wrapsCompared indent e.layout ++ comparisons ops es indent)
  | _, _, _ => []

/-- The marks of values between commas. A name among them is a feature if `toFeature`. -/
def arguments (toFeature : Bool) : List Expr → Nat → List Mark
  | [], _ => []
  | [e], indent => named toFeature (layout e indent)
  | e :: es, indent => named toFeature (layout e indent) ++ .comma :: arguments toFeature es indent

/-- The marks of a bound of a slice, after what leads it. -/
def bound (before : List Mark) : Option Expr → Nat → List Mark
  | none, _ => []
  | some e, indent => before ++ layout e indent

end

/-- A name is laid out as it is. -/
@[simp] theorem layout_name (p : Pos) (id : String) (indent : Nat) :
    (name p id).layout indent = [.name id] := by
  rw [layout]

/-- A literal is laid out as its mark. -/
@[simp] theorem layout_const (p : Pos) (value : Constant) (indent : Nat) :
    (const p value).layout indent = [value.mark] := by
  rw [layout]

end Expr
end ValidUsage
