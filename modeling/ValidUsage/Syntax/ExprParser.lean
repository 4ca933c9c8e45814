import ValidUsage.Syntax.Lexer
import ValidUsage.Syntax.Literal
import ValidUsage.Syntax.Operators

/-!
# Reading expressions

Expressions are read by descent through the levels of the grammar: the choice `a if c else b`, then
`or`, `and`, `not`, comparisons, six levels of operators that group to the left, signs, powers,
trailers (calls, subscripts and members), and atoms. Each reader returns its value with the tokens
that follow it, fewer than it was given; on equal tokens it only calls readers of a tighter level.
So reading ends on every list of tokens.
-/

namespace ValidUsage.Parser

/-- A value that was read, with the tokens after it, fewer than `n`. -/
structure Read (α : Type) (n : Nat) where
  /-- What was read. -/
  value : α
  /-- The tokens after it. -/
  rest : List Token
  /-- How many tokens there may be. -/
  bound : rest.length < n

/-- Tokens are fewer without the first one. -/
theorem length_lt_cons (t : Token) (r : List Token) : r.length < (t :: r).length :=
  Nat.lt_succ_self r.length

/-- Nothing is read where nothing needs to be. -/
theorem length_lt_succ (ts : List Token) : ts.length < ts.length + 1 := Nat.lt_succ_self ts.length

/-- Fewer tokens are no more. -/
theorem lt_succ_of_lt {ts r : List Token} (h : r.length < ts.length) :
    r.length < ts.length + 1 := by
  omega

/-- Fewer tokens than some are fewer than those behind another one. -/
theorem lt_length_cons {r r' : List Token} (t : Token) (h : r'.length < r.length) :
    r'.length < (t :: r).length :=
  Nat.lt_succ_of_lt h

/-- What is left after a separator, an item and the rest of a list. -/
theorem lt_succ_of_item {ts r r' r'' : List Token} (h : r.length < ts.length)
    (h' : r'.length < r.length) (h'' : r''.length < r'.length + 1) :
    r''.length < ts.length + 1 := by
  omega

/-- The outcome of reading. -/
abbrev Parse (α : Type) (n : Nat) := Except SyntaxError (Read α n)

/-- The next token; the end of the text if there is none. -/
def peek (ts : List Token) : Token := ts.headD ⟨.endMarker, "", .none⟩

/-- Whether the next token is the given operator or word. -/
def at? (text : String) (ts : List Token) : Bool := (peek ts).is text

/-- A fault at the next token. -/
def fail {α : Type} (fault : SyntaxFault) (ts : List Token) : Except SyntaxError α :=
  .error ⟨fault, (peek ts).pos⟩

/-- The fault of a token that cannot stand where it does. -/
def misplaced (t : Token) : SyntaxFault :=
  match t.kind with
  | .indent => .indent
  | .newline | .endMarker | .dedent => .lineEnd
  | _ => .token

/-- The next token cannot stand where it does. -/
def invalid {α : Type} (ts : List Token) : Except SyntaxError α := fail (misplaced (peek ts)) ts

/-- The tokens after the given operator or word, if it is next. -/
def eat? (text : String) : (ts : List Token) → Option { r : List Token // r.length < ts.length }
  | [] => none
  | t :: r => if t.is text then some ⟨r, by simp⟩ else none

/-- The tokens after the given operator or word, which has to be next. -/
def expect (text : String) (ts : List Token) :
    Except SyntaxError { r : List Token // r.length < ts.length } :=
  match eat? text ts with
  | some r => .ok r
  | none => fail (.expected text) ts

/-- The levels of operators that group to the left. -/
inductive Level where
  | bitOr
  | bitXor
  | bitAnd
  | shift
  | sum
  | product

/-- The operators of a level. -/
def Level.ops : Level → List BinOp
  | .bitOr => [.bitOr]
  | .bitXor => [.bitXor]
  | .bitAnd => [.bitAnd]
  | .shift => [.lShift, .rShift]
  | .sum => [.add, .sub]
  | .product => [.mult, .div, .floorDiv, .mod, .matMult]

/-- How many levels are tighter. -/
def Level.rank : Level → Nat
  | .bitOr => 5
  | .bitXor => 4
  | .bitAnd => 3
  | .shift => 2
  | .sum => 1
  | .product => 0

/-- There are six levels. -/
theorem Level.rank_le (l : Level) : l.rank ≤ 5 := by cases l <;> decide

/-- How loose an operator between conditions is, among the readers of expressions. -/
def looseness : BoolOp → Nat
  | .or => 26
  | .and => 24

/-- The operator of a level that a token is. -/
def Level.op? (l : Level) (t : Token) : Option BinOp :=
  if t.kind = .op then l.ops.find? fun o => o.spelling == t.text else none

/-- The sign that a token is. -/
def sign? (t : Token) : Option UnaryOp :=
  if t.kind = .op then [UnaryOp.plus, .minus, .invert].find? fun o => o.spelling == t.text else none

/-- The operator of a comparison that is next, and the tokens after it. Two of them have two
words. -/
def cmpOp? : (ts : List Token) → Option (Read CmpOp ts.length)
  | [] => none
  | t :: r =>
    match t.kind, t.text with
    | .op, "==" => some ⟨.eq, r, by simp⟩
    | .op, "!=" => some ⟨.notEq, r, by simp⟩
    | .op, "<" => some ⟨.lt, r, by simp⟩
    | .op, "<=" => some ⟨.ltE, r, by simp⟩
    | .op, ">" => some ⟨.gt, r, by simp⟩
    | .op, ">=" => some ⟨.gtE, r, by simp⟩
    | .name, "in" => some ⟨.isIn, r, by simp⟩
    | .name, "is" =>
      match eat? "not" r with
      | some ⟨r', h⟩ => some ⟨.isNot, r', by simp; omega⟩
      | none => some ⟨.is, r, by simp⟩
    | .name, "not" =>
      match eat? "in" r with
      | some ⟨r', h⟩ => some ⟨.notIn, r', by simp; omega⟩
      | none => none
    | _, _ => none

/-- Lists of items with commas between. -/
inductive Sequence where
  /-- The values of a statement or between parentheses. -/
  | values
  /-- The targets of a loop, which end before `in`. -/
  | targets
  /-- The indices of a subscript. -/
  | indices

/-- Whether a list ends after a comma. -/
def Sequence.ends (k : Sequence) (ts : List Token) : Bool :=
  match k with
  | .values =>
    let t := peek ts
    t.kind == .newline || t.kind == .endMarker || [")", "]", "=", ":", ";"].any t.is
  | .targets => at? "in" ts
  | .indices => at? "]" ts

mutual

/-- Items with commas between: a single item, or a tuple if there is a comma. -/
def sequence (k : Sequence) (ts : List Token) : Parse Expr ts.length := do
  let ⟨first, r, h⟩ ← item k ts
  if at? "," r then
    let ⟨others, r', h'⟩ ← items k r
    return ⟨.tuple first.pos (first :: others), r', by omega⟩
  else return ⟨first, r, h⟩
termination_by 40 * ts.length + 32

/-- The items that follow, each after a comma. A comma may also end the list. -/
def items (k : Sequence) (ts : List Token) : Parse (List Expr) (ts.length + 1) :=
  match eat? "," ts with
  | none => .ok ⟨[], ts, length_lt_succ ts⟩
  | some ⟨r, h⟩ =>
    if k.ends r then .ok ⟨[], r, lt_succ_of_lt h⟩
    else do
      let ⟨e, r', h'⟩ ← item k r
      let ⟨es, r'', h''⟩ ← items k r'
      return ⟨e :: es, r'', lt_succ_of_item h h' h''⟩
termination_by 40 * ts.length

/-- An item of a list. -/
def item (k : Sequence) (ts : List Token) : Parse Expr ts.length :=
  match k with
  | .values => test ts
  | .targets => binary .bitOr ts
  | .indices => index ts
termination_by 40 * ts.length + 31
decreasing_by all_goals first | omega | (simp only [Level.rank]; omega)

/-- An index: an expression, or the bounds of a slice. -/
def index (ts : List Token) : Parse Expr ts.length := do
  let pos := (peek ts).pos
  match eat? ":" ts with
  | some ⟨r, h⟩ =>
    let ⟨(upper, step), r', h'⟩ ← bounds r
    return ⟨.slice pos none upper step, r', by omega⟩
  | none =>
    let ⟨e, r, h⟩ ← test ts
    match eat? ":" r with
    | none => return ⟨e, r, h⟩
    | some ⟨r', h'⟩ =>
      let ⟨(upper, step), r'', h''⟩ ← bounds r'
      return ⟨.slice pos (some e) upper step, r'', by omega⟩
termination_by 40 * ts.length + 30

/-- The bounds of a slice after its first colon. -/
def bounds (ts : List Token) : Parse (Option Expr × Option Expr) (ts.length + 1) := do
  let ⟨upper, r, h⟩ ← bound ts
  match eat? ":" r with
  | none => return ⟨(upper, none), r, h⟩
  | some ⟨r', h'⟩ =>
    let ⟨step, r'', h''⟩ ← bound r'
    return ⟨(upper, step), r'', by omega⟩
termination_by 40 * ts.length + 30

/-- A bound of a slice, or nothing before what ends it. -/
def bound (ts : List Token) : Parse (Option Expr) (ts.length + 1) :=
  if at? ":" ts || at? "]" ts || at? "," ts then .ok ⟨none, ts, length_lt_succ ts⟩
  else do
    let ⟨e, r, h⟩ ← test ts
    return ⟨some e, r, lt_succ_of_lt h⟩
termination_by 40 * ts.length + 29

/-- An expression: `body if test else orelse`, or a condition alone. -/
def test (ts : List Token) : Parse Expr ts.length := do
  let ⟨body, r, h⟩ ← joined .or ts
  match eat? "if" r with
  | none => return ⟨body, r, h⟩
  | some ⟨r₁, h₁⟩ =>
    let ⟨cond, r₂, h₂⟩ ← joined .or r₁
    let ⟨r₃, h₃⟩ ← expect "else" r₂
    let ⟨orelse, r₄, h₄⟩ ← test r₃
    return ⟨.ifExp body.pos cond body orelse, r₄, by omega⟩
termination_by 40 * ts.length + 28
decreasing_by all_goals first | omega | (simp only [looseness]; omega)

/-- Conditions joined by an operator, or one condition alone. -/
def joined (op : BoolOp) (ts : List Token) : Parse Expr ts.length := do
  let ⟨first, r, h⟩ ← operand op ts
  if at? op.spelling r then
    let ⟨others, r', h'⟩ ← operands op r
    return ⟨.boolOp first.pos op (first :: others), r', by omega⟩
  else return ⟨first, r, h⟩
termination_by 40 * ts.length + looseness op + 1

/-- The conditions that follow, each after the operator. -/
def operands (op : BoolOp) (ts : List Token) : Parse (List Expr) (ts.length + 1) :=
  match eat? op.spelling ts with
  | none => .ok ⟨[], ts, length_lt_succ ts⟩
  | some ⟨r, h⟩ => do
    let ⟨e, r', h'⟩ ← operand op r
    let ⟨es, r'', h''⟩ ← operands op r'
    return ⟨e :: es, r'', by omega⟩
termination_by 40 * ts.length
decreasing_by
  · cases op <;> simp only [looseness] <;> omega
  · omega

/-- A condition that may be joined: `and` binds tighter than `or`, and `not` tighter than both. -/
def operand (op : BoolOp) (ts : List Token) : Parse Expr ts.length :=
  match op with
  | .or => joined .and ts
  | .and => negation ts
termination_by 40 * ts.length + looseness op
decreasing_by all_goals first | omega | (simp only [looseness]; omega)

/-- A comparison, after any number of `not`. -/
def negation (ts : List Token) : Parse Expr ts.length :=
  match eat? "not" ts with
  | some ⟨r, h⟩ => do
    let ⟨e, r', h'⟩ ← negation r
    return ⟨.unary (peek ts).pos .not e, r', by omega⟩
  | none => comparison ts
termination_by 40 * ts.length + 23

/-- A chain of comparisons, or one operand alone. -/
def comparison (ts : List Token) : Parse Expr ts.length := do
  let ⟨left, r, h⟩ ← binary .bitOr ts
  let ⟨(ops, comparators), r', h'⟩ ← comparators r
  match ops with
  | [] => return ⟨left, r', by omega⟩
  | _ => return ⟨.compare left.pos left ops comparators, r', by omega⟩
termination_by 40 * ts.length + 22
decreasing_by all_goals first | omega | (simp only [Level.rank]; omega)

/-- The operators and operands that follow the first operand of a chain of comparisons. -/
def comparators (ts : List Token) : Parse (List CmpOp × List Expr) (ts.length + 1) :=
  match cmpOp? ts with
  | none => .ok ⟨([], []), ts, length_lt_succ ts⟩
  | some ⟨op, r, h⟩ => do
    let ⟨e, r', h'⟩ ← binary .bitOr r
    let ⟨(ops, es), r'', h''⟩ ← comparators r'
    return ⟨(op :: ops, e :: es), r'', by omega⟩
termination_by 40 * ts.length
decreasing_by all_goals first | omega | (simp only [Level.rank]; omega)

/-- Operands with the operators of a level between, grouped to the left. -/
def binary (l : Level) (ts : List Token) : Parse Expr ts.length := do
  let ⟨left, r, h⟩ ← tighter l ts
  let ⟨e, r', h'⟩ ← binaryRest l left r
  return ⟨e, r', by omega⟩
termination_by 40 * ts.length + 2 * l.rank + 11

/-- An operand of the operators of a level. -/
def tighter (l : Level) (ts : List Token) : Parse Expr ts.length :=
  match l with
  | .bitOr => binary .bitXor ts
  | .bitXor => binary .bitAnd ts
  | .bitAnd => binary .shift ts
  | .shift => binary .sum ts
  | .sum => binary .product ts
  | .product => factor ts
termination_by 40 * ts.length + 2 * l.rank + 10
decreasing_by all_goals first | omega | (simp only [Level.rank]; omega)

/-- The operators of a level and operands that follow a left operand. -/
def binaryRest (l : Level) (left : Expr) (ts : List Token) : Parse Expr (ts.length + 1) :=
  match ts with
  | [] => .ok ⟨left, [], by simp⟩
  | t :: r =>
    match l.op? t with
    | none => .ok ⟨left, t :: r, by simp⟩
    | some op => do
      let ⟨right, r', h⟩ ← tighter l r
      let ⟨e, r'', h'⟩ ← binaryRest l (.binary left.pos left op right) r'
      return ⟨e, r'', by simp; omega⟩
termination_by 40 * ts.length
decreasing_by
  · have := l.rank_le
    simp only [List.length_cons]
    omega
  · simp only [List.length_cons]
    omega

/-- A power, after any number of signs. -/
def factor (ts : List Token) : Parse Expr ts.length :=
  match ts with
  | [] => invalid []
  | t :: r =>
    match sign? t with
    | some op => do
      let ⟨e, r', h⟩ ← factor r
      return ⟨.unary t.pos op e, r', by simp; omega⟩
    | none => power (t :: r)
termination_by 40 * ts.length + 9

/-- A power, which groups to the right and binds tighter than a sign on its left. -/
def power (ts : List Token) : Parse Expr ts.length := do
  let ⟨base, r, h⟩ ← primary ts
  match eat? "**" r with
  | none => return ⟨base, r, h⟩
  | some ⟨r₁, h₁⟩ =>
    let ⟨exponent, r₂, h₂⟩ ← factor r₁
    return ⟨.binary base.pos base .pow exponent, r₂, by omega⟩
termination_by 40 * ts.length + 8

/-- An atom with its trailers. -/
def primary (ts : List Token) : Parse Expr ts.length := do
  let ⟨e, r, h⟩ ← atom ts
  let ⟨e', r', h'⟩ ← trailers e r
  return ⟨e', r', by omega⟩
termination_by 40 * ts.length + 7

/-- The calls, subscripts and members that follow a value. -/
def trailers (e : Expr) (ts : List Token) : Parse Expr (ts.length + 1) :=
  match eat? "(" ts with
  | some ⟨r, h⟩ => do
    let ⟨args, r₁, h₁⟩ ← arguments ")" r
    let ⟨e', r₂, h₂⟩ ← trailers (.call e.pos e args) r₁
    return ⟨e', r₂, by omega⟩
  | none =>
    match eat? "[" ts with
    | some ⟨r, h⟩ => do
      let ⟨i, r₁, h₁⟩ ← sequence .indices r
      let ⟨r₂, h₂⟩ ← expect "]" r₁
      let ⟨e', r₃, h₃⟩ ← trailers (.subscript e.pos e i) r₂
      return ⟨e', r₃, by omega⟩
    | none =>
      match eat? "." ts with
      | some ⟨[], _⟩ => invalid []
      | some ⟨t :: r, h⟩ =>
        if t.kind = .name ∧ !isKeyword t.text then do
          let ⟨e', r₁, h₁⟩ ← trailers (.member e.pos e t.text) r
          return ⟨e', r₁, by simp at h; omega⟩
        else invalid (t :: r)
      | none => .ok ⟨e, ts, length_lt_succ ts⟩
termination_by 40 * ts.length
decreasing_by all_goals first | omega | (simp only [List.length_cons] at h; omega)

/-- Expressions with commas between, up to and with a closing bracket. A comma may stand before the
bracket. -/
def arguments (close : String) (ts : List Token) : Parse (List Expr) ts.length :=
  match eat? close ts with
  | some ⟨r, h⟩ => .ok ⟨[], r, h⟩
  | none => do
    let ⟨e, r, h⟩ ← test ts
    match eat? "," r with
    | some ⟨r₁, h₁⟩ =>
      let ⟨es, r₂, h₂⟩ ← arguments close r₁
      return ⟨e :: es, r₂, by omega⟩
    | none =>
      let ⟨r₁, h₁⟩ ← expect close r
      return ⟨[e], r₁, by omega⟩
termination_by 40 * ts.length + 29

/-- A name, a literal, or an expression in brackets. Strings that follow each other are one. -/
def atom (ts : List Token) : Parse Expr ts.length :=
  match ts with
  | [] => invalid []
  | t :: r =>
    match t.kind with
    | .name =>
      if t.text = "True" then .ok ⟨.ofBool t.pos true, r, by simp⟩
      else if t.text = "False" then .ok ⟨.ofBool t.pos false, r, by simp⟩
      else if t.text = "None" then .ok ⟨.const t.pos .none, r, by simp⟩
      else if isKeyword t.text then invalid (t :: r)
      else .ok ⟨.name t.pos t.text, r, by simp⟩
    | .number =>
      match Literal.number? t.text.toList with
      | some value => .ok ⟨.const t.pos value, r, by simp⟩
      | none => fail .number (t :: r)
    | .str =>
      let parts := (t :: r).takeWhile (·.kind == .str)
      let text := parts.flatMap fun t => Literal.unquote t.text.toList
      .ok ⟨.const t.pos (.str (String.ofList text)), r.dropWhile (·.kind == .str), by
        have := (List.dropWhile_suffix (l := r) (·.kind == .str)).length_le
        simp; omega⟩
    | .op =>
      if t.text = "(" then
        match eat? ")" r with
        | some ⟨r₁, h₁⟩ => .ok ⟨.tuple t.pos [], r₁, by simp; omega⟩
        | none => do
          let ⟨e, r₁, h₁⟩ ← sequence .values r
          let ⟨r₂, h₂⟩ ← expect ")" r₁
          return ⟨e, r₂, by simp; omega⟩
      else if t.text = "[" then do
        let ⟨es, r₁, h₁⟩ ← arguments "]" r
        return ⟨.list t.pos es, r₁, by simp; omega⟩
      else invalid (t :: r)
    | _ => invalid (t :: r)
termination_by 40 * ts.length + 6

end

end ValidUsage.Parser
