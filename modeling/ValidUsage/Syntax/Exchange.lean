import ValidUsage.Json.Record
import ValidUsage.Number.Width
import ValidUsage.Syntax.Operators

/-!
# Trees in JSON

A node is an object of its kind and its position; the kind is an object that names the alternative
and gives its fields. Literal numbers are JSON numbers, or texts where the exact value has to
survive readers with other numbers.
-/

namespace ValidUsage

/-- The word for an operator that joins conditions. -/
def BoolOp.word : BoolOp → String
  | .and => "and"
  | .or => "or"

/-- The word for an operator on two operands. -/
def BinOp.word : BinOp → String
  | .add => "add"
  | .sub => "sub"
  | .mult => "mult"
  | .div => "div"
  | .floorDiv => "floordiv"
  | .mod => "mod"
  | .pow => "pow"
  | .matMult => "matmult"
  | .lShift => "lshift"
  | .rShift => "rshift"
  | .bitOr => "bitor"
  | .bitXor => "bitxor"
  | .bitAnd => "bitand"

/-- The word for an operator in front of its operand. -/
def UnaryOp.word : UnaryOp → String
  | .not => "not"
  | .invert => "invert"
  | .plus => "uadd"
  | .minus => "usub"

/-- The word for an operator of a comparison. -/
def CmpOp.word : CmpOp → String
  | .eq => "eq"
  | .notEq => "noteq"
  | .lt => "lt"
  | .ltE => "lte"
  | .gt => "gt"
  | .gtE => "gte"
  | .is => "is"
  | .isNot => "isnot"
  | .isIn => "in"
  | .notIn => "notin"

/-- The operators that join conditions. -/
def BoolOp.all : List BoolOp := [.and, .or]

/-- The operators in front of an operand. -/
def UnaryOp.all : List UnaryOp := [.not, .invert, .plus, .minus]

/-- The operators of comparisons. -/
def CmpOp.all : List CmpOp := [.eq, .notEq, .lt, .ltE, .gt, .gtE, .is, .isNot, .isIn, .notIn]

namespace Exchange

/-- How literal numbers are written. -/
inductive Numbers where
  /-- As JSON numbers. -/
  | json
  /-- As the text of the literal. -/
  | text
  deriving DecidableEq

/-- A number with a fraction or an exponent, as a JSON number. -/
def floatJson (x : Binary64) : Json :=
  let d := x.shortest true
  .num ⟨x.neg, d.digits, d.exp, false⟩

/-- A literal. -/
def constant (n : Numbers) : Constant → Json
  | .bool b => .obj [("type", .str "bool"), ("value", .bool b)]
  | .int i => .obj [("type", .str "int"), ("value", match n with
    | .json => .nat i
    | .text => .str (toString i))]
  | .float x => .obj [("type", .str "float"), ("value", match n with
    | .json => floatJson x
    | .text => .str (DecimalStyle.literal.write x))]
  | .str s => .obj [("type", .str "str"), ("value", .str s)]
  | .none => .obj [("type", .str "none")]

/-- A position. -/
def pos (p : Pos) : Json := .obj [("line", .nat p.line), ("col", .nat p.col)]

/-- A node of a kind at a position. -/
def node (kind : String) (fields : List (String × Json)) (p : Pos) : Json :=
  .obj [("kind", .obj (("kind", .str kind) :: fields)), ("pos", pos p)]

mutual

/-- An expression. -/
def expr (n : Numbers) : Expr → Json
  | .boolOp p op values => node "BoolOp" [("op", .str op.word), ("values", .arr (exprs n values))] p
  | .binary p left op right =>
    node "BinOp" [("left", expr n left), ("op", .str op.word), ("right", expr n right)] p
  | .unary p op operand => node "UnaryOp" [("op", .str op.word), ("operand", expr n operand)] p
  | .compare p left ops comparators =>
    node "Compare" [("left", expr n left), ("ops", .arr (ops.map fun o => .str o.word)),
      ("comparators", .arr (exprs n comparators))] p
  | .call p func args => node "Call" [("func", expr n func), ("args", .arr (exprs n args))] p
  | .member p value attr => node "Attribute" [("value", expr n value), ("attr", .str attr)] p
  | .subscript p value index =>
    node "Subscript" [("value", expr n value), ("index", expr n index)] p
  | .ifExp p test body orelse =>
    node "IfExp" [("test", expr n test), ("body", expr n body), ("orelse", expr n orelse)] p
  | .name p id => node "Name" [("id", .str id)] p
  | .const p value => node "Constant" [("value", constant n value)] p
  | .tuple p elts => node "Tuple" [("elts", .arr (exprs n elts))] p
  | .list p elts => node "List" [("elts", .arr (exprs n elts))] p
  | .slice p lower upper step =>
    node "Slice" [("lower", bound n lower), ("upper", bound n upper), ("step", bound n step)] p

/-- A list of expressions. -/
def exprs (n : Numbers) : List Expr → List Json
  | [] => []
  | e :: es => expr n e :: exprs n es

/-- A bound of a slice. -/
def bound (n : Numbers) : Option Expr → Json
  | none => .null
  | some e => expr n e

end

mutual

/-- A statement. -/
def stmt (n : Numbers) : Stmt → Json
  | .assign p targets value =>
    node "Assign" [("targets", .arr (exprs n targets)), ("value", expr n value)] p
  | .update p target op value =>
    node "AugAssign" [("target", expr n target), ("op", .str op.word), ("value", expr n value)] p
  | .ifElse p test body orelse =>
    node "If" [("test", expr n test), ("body", .arr (stmts n body)),
      ("orelse", .arr (stmts n orelse))] p
  | .forEach p target iter body orelse =>
    node "For" [("target", expr n target), ("iter", expr n iter), ("body", .arr (stmts n body)),
      ("orelse", .arr (stmts n orelse))] p
  | .whileDo p test body orelse =>
    node "While" [("test", expr n test), ("body", .arr (stmts n body)),
      ("orelse", .arr (stmts n orelse))] p
  | .expr p value => node "Expr" [("value", expr n value)] p
  | .pass p => node "Pass" [] p
  | .breakOut p => node "Break" [] p
  | .nextRound p => node "Continue" [] p

/-- A list of statements. -/
def stmts (n : Numbers) : Block → List Json
  | [] => []
  | s :: ss => stmt n s :: stmts n ss

end

/-- A block. -/
def block (n : Numbers) (b : Block) : Json := .obj [("body", .arr (stmts n b))]

/-- The position that a value describes. -/
def pos? (j : Json) : Option Pos := do
  match ← j.record? [.required "line", .required "col"] with
  | [line, col] =>
    return ⟨← Json.given (Json.natBelow? limit32) line, ← Json.given (Json.natBelow? limit32) col⟩
  | _ => none

/-- The literal that a type and a value describe. -/
def literal? (type : String) (value : Option Json) : Option Constant :=
  match type, value with
  | "bool", some j => j.bool?.map .bool
  | "int", some j => (j.natBelow? limit64).map .int
  | "float", some j => j.binary64?.map .float
  | "str", some j => j.str?.map .str
  | "none", none => some .none
  | "none", some .null => some .none
  | _, _ => none

/-- The literal that a value describes. -/
def constant? (j : Json) : Option Constant := do
  match ← j.record? [.required "type", .required "value"] with
  | [type, value] => literal? (← Json.given Json.variant? type) (value.map (·.val))
  | _ => none

/-- The kind and the position of a node. -/
def node? (j : Json) : Option (Json.Part j × Pos) := do
  match ← j.record? [.required "kind", .required "pos"] with
  | [some kind, p] => return (kind, ← Json.given pos? p)
  | _ => none

/-- The fields of the schema of an alternative. -/
def fields? (names : List String) (j : Json) : Option (List (Option (Json.Part j))) :=
  j.record? (names.map .required)

mutual

/-- The expression that a value describes. -/
def expr? (j : Json) : Option Expr := do
  let (⟨kind, _hk⟩, p) ← node? j
  let (name, ⟨v, _hv⟩) ← kind.tagged? "kind"
  let sub : Option (Json.Part v) → Option Expr := fun
    | some ⟨e, _he⟩ => expr? e
    | none => none
  let subs : Option (Json.Part v) → Option (List Expr) := fun
    | some ⟨es, _he⟩ => exprs? es
    | none => none
  let subBound : Option (Json.Part v) → Option (Option Expr) := fun
    | none | some ⟨.null, _⟩ => some none
    | some ⟨e, _he⟩ => (expr? e).map some
  match name with
  | "BoolOp" => match ← fields? ["op", "values"] v with
    | [op, values] =>
      return .boolOp p (← Json.given (Json.oneOf? BoolOp.all BoolOp.word) op) (← subs values)
    | _ => none
  | "BinOp" => match ← fields? ["left", "op", "right"] v with
    | [left, op, right] =>
      return .binary p (← sub left) (← Json.given (Json.oneOf? BinOp.all BinOp.word) op)
        (← sub right)
    | _ => none
  | "UnaryOp" => match ← fields? ["op", "operand"] v with
    | [op, operand] =>
      return .unary p (← Json.given (Json.oneOf? UnaryOp.all UnaryOp.word) op) (← sub operand)
    | _ => none
  | "Compare" => match ← fields? ["left", "ops", "comparators"] v with
    | [left, ops, comparators] =>
      return .compare p (← sub left)
        (← Json.given (Json.list? (Json.oneOf? CmpOp.all CmpOp.word)) ops) (← subs comparators)
    | _ => none
  | "Call" => match ← fields? ["func", "args"] v with
    | [func, args] => return .call p (← sub func) (← subs args)
    | _ => none
  | "Attribute" => match ← fields? ["value", "attr"] v with
    | [value, attr] => return .member p (← sub value) (← Json.given Json.str? attr)
    | _ => none
  | "Subscript" => match ← fields? ["value", "index"] v with
    | [value, index] => return .subscript p (← sub value) (← sub index)
    | _ => none
  | "IfExp" => match ← fields? ["test", "body", "orelse"] v with
    | [test, body, orelse] => return .ifExp p (← sub test) (← sub body) (← sub orelse)
    | _ => none
  | "Name" => match ← fields? ["id"] v with
    | [id] => return .name p (← Json.given Json.str? id)
    | _ => none
  | "Constant" => match ← fields? ["value"] v with
    | [value] => return .const p (← Json.given constant? value)
    | _ => none
  | "Tuple" => match ← fields? ["elts"] v with
    | [elts] => return .tuple p (← subs elts)
    | _ => none
  | "List" => match ← fields? ["elts"] v with
    | [elts] => return .list p (← subs elts)
    | _ => none
  | "Slice" => match ← fields? ["lower", "upper", "step"] v with
    | [lower, upper, step] =>
      return .slice p (← subBound lower) (← subBound upper) (← subBound step)
    | _ => none
  | _ => none
termination_by sizeOf j

/-- The list of expressions that a value describes. -/
def exprs? (j : Json) : Option (List Expr) := do
  (← j.parts?).mapM fun ⟨e, _he⟩ => expr? e
termination_by sizeOf j

end

mutual

/-- The statement that a value describes. -/
def stmt? (j : Json) : Option Stmt := do
  let (⟨kind, _hk⟩, p) ← node? j
  let (name, ⟨v, _hv⟩) ← kind.tagged? "kind"
  let body : Option (Json.Part v) → Option Block := fun
    | some ⟨ss, _hs⟩ => stmts? ss
    | none => none
  match name with
  | "Assign" => match ← fields? ["targets", "value"] v with
    | [targets, value] => return .assign p (← Json.given exprs? targets) (← Json.given expr? value)
    | _ => none
  | "AugAssign" => match ← fields? ["target", "op", "value"] v with
    | [target, op, value] =>
      return .update p (← Json.given expr? target)
        (← Json.given (Json.oneOf? BinOp.all BinOp.word) op) (← Json.given expr? value)
    | _ => none
  | "If" => match ← fields? ["test", "body", "orelse"] v with
    | [test, b, o] => return .ifElse p (← Json.given expr? test) (← body b) (← body o)
    | _ => none
  | "For" => match ← fields? ["target", "iter", "body", "orelse"] v with
    | [target, iter, b, o] =>
      return .forEach p (← Json.given expr? target) (← Json.given expr? iter) (← body b) (← body o)
    | _ => none
  | "While" => match ← fields? ["test", "body", "orelse"] v with
    | [test, b, o] => return .whileDo p (← Json.given expr? test) (← body b) (← body o)
    | _ => none
  | "Expr" => match ← fields? ["value"] v with
    | [value] => return .expr p (← Json.given expr? value)
    | _ => none
  | "Pass" => return .pass p
  | "Break" => return .breakOut p
  | "Continue" => return .nextRound p
  | _ => none
termination_by sizeOf j

/-- The list of statements that a value describes. -/
def stmts? (j : Json) : Option Block := do
  (← j.parts?).mapM fun ⟨s, _hs⟩ => stmt? s
termination_by sizeOf j

end

/-- The block that a value describes. -/
def block? (j : Json) : Option Block := do
  match ← j.record? [.required "body"] with
  | [body] => Json.given stmts? body
  | _ => none

end Exchange
end ValidUsage
