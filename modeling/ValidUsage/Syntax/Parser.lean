import ValidUsage.Syntax.ExprParser

/-!
# Reading statements

A simple statement ends with its line; several on one line are separated by semicolons. A compound
statement holds blocks: either simple statements on the same line, or an indented block. The
readers return fewer tokens than they were given, so `parse` ends on every text.
-/

namespace ValidUsage.Parser

/-- The statements that are one word. -/
def wordStmt? (t : Token) : Option Stmt :=
  if t.kind = .name then
    if t.text = "pass" then some (.pass t.pos)
    else if t.text = "break" then some (.breakOut t.pos)
    else if t.text = "continue" then some (.nextRound t.pos)
    else none
  else none

/-- The operator that an assignment is combined with, if the next token says so. -/
def updateOp? (ts : List Token) : Option BinOp :=
  BinOp.all.find? fun o => at? (o.spelling ++ "=") ts

/-- The values that follow, each after a `=`. -/
def assigned (ts : List Token) : Parse (List Expr) (ts.length + 1) :=
  match eat? "=" ts with
  | none => .ok ⟨[], ts, length_lt_succ ts⟩
  | some ⟨r, h⟩ => do
    let ⟨e, r', h'⟩ ← sequence .values r
    let ⟨es, r'', h''⟩ ← assigned r'
    return ⟨e :: es, r'', lt_succ_of_item h h' h''⟩
termination_by ts.length

/-- A statement without blocks. -/
def simpleStmt (ts : List Token) : Parse Stmt ts.length :=
  match ts with
  | [] => invalid []
  | t :: r =>
    match wordStmt? t with
    | some s => .ok ⟨s, r, length_lt_cons t r⟩
    | none => do
      let ⟨first, r₁, h₁⟩ ← sequence .values (t :: r)
      let ⟨others, r₂, h₂⟩ ← assigned r₁
      match others.reverse with
      | value :: targets =>
        return ⟨.assign t.pos (first :: targets.reverse) value, r₂, by omega⟩
      | [] =>
        match updateOp? r₁ with
        | none => return ⟨.expr t.pos first, r₁, h₁⟩
        | some op =>
          let ⟨value, r₃, h₃⟩ ← sequence .values r₁.tail
          return ⟨.update t.pos first op value, r₃, by rw [List.length_tail] at h₃; omega⟩

/-- The statements that follow on a line, each after a semicolon. A semicolon may also end the
line. -/
def simpleRest (ts : List Token) : Parse Block (ts.length + 1) :=
  match eat? ";" ts with
  | none => .ok ⟨[], ts, length_lt_succ ts⟩
  | some ⟨r, h⟩ =>
    if (peek r).kind = .newline then .ok ⟨[], r, lt_succ_of_lt h⟩
    else do
      let ⟨s, r', h'⟩ ← simpleStmt r
      let ⟨ss, r'', h''⟩ ← simpleRest r'
      return ⟨s :: ss, r'', lt_succ_of_item h h' h''⟩
termination_by ts.length

/-- The statements of a line, with its end. -/
def simpleStmts (ts : List Token) : Parse Block ts.length := do
  let ⟨s, r, h⟩ ← simpleStmt ts
  let ⟨ss, r', h'⟩ ← simpleRest r
  match hr : r' with
  | t :: r'' =>
    if t.kind = .newline then return ⟨s :: ss, r'', by simp [hr] at h'; omega⟩
    else invalid (t :: r'')
  | [] => invalid []

/-- Whether a list of statements ends: at the end of the text, and within a block where the
indentation falls back. -/
def endsBlock (inside : Bool) (t : Token) : Bool :=
  t.kind == .endMarker || (inside && t.kind == .dedent)

/-- A block ends with the text or with its indentation. -/
theorem kind_of_endsBlock {inside : Bool} {t : Token} (h : endsBlock inside t = true) :
    t.kind = .endMarker ∨ t.kind = .dedent := by
  simp only [endsBlock, Bool.or_eq_true, beq_iff_eq, Bool.and_eq_true] at h
  exact h.imp id And.right

/-- What ends a block is layout. -/
theorem isLayout_of_endsBlock {inside : Bool} {t : Token} (h : endsBlock inside t = true) :
    t.kind.isLayout = true := by
  rcases kind_of_endsBlock h with hk | hk <;> rw [hk] <;> rfl

/-- What is no layout ends no block. -/
theorem not_endsBlock {t : Token} (h : t.kind.isLayout = false) (inside : Bool) :
    endsBlock inside t = false :=
  Bool.eq_false_iff.2 fun he => absurd (h.symm.trans (isLayout_of_endsBlock he)) nofun

/-- The tokens after a block: the indentation that it closes is left behind. -/
def closeBlock : (ts : List Token) → { r : List Token // r.length ≤ ts.length }
  | [] => ⟨[], by simp⟩
  | t :: r => if t.kind = .endMarker then ⟨t :: r, by simp⟩ else ⟨r, by simp⟩

mutual

/-- Statements up to where they end. -/
def statements (inside : Bool) (ts : List Token) : Parse Block (ts.length + 1) :=
  match ts with
  | [] => .ok ⟨[], [], by simp⟩
  | t :: r =>
    if endsBlock inside t then .ok ⟨[], t :: r, by simp⟩
    else do
      let ⟨ss, r₁, h₁⟩ ← statement (t :: r)
      let ⟨ss', r₂, h₂⟩ ← statements inside r₁
      return ⟨ss ++ ss', r₂, by omega⟩
termination_by 8 * ts.length + 3
decreasing_by all_goals (simp only [List.length_cons] at *; omega)

/-- A compound statement, or the simple statements of a line. -/
def statement (ts : List Token) : Parse Block ts.length :=
  match ts with
  | [] => invalid []
  | t :: r =>
    if t.kind = .indent then fail .indent (t :: r)
    else if t.kind = .name ∧ t.text = "if" then do
      let ⟨s, r', h⟩ ← ifStmt t.pos r
      return ⟨[s], r', lt_length_cons t h⟩
    else if t.kind = .name ∧ t.text = "for" then do
      let ⟨target, r₁, h₁⟩ ← sequence .targets r
      let ⟨r₂, h₂⟩ ← expect "in" r₁
      let ⟨iter, r₃, h₃⟩ ← sequence .values r₂
      let ⟨r₄, h₄⟩ ← expect ":" r₃
      let ⟨body, r₅, h₅⟩ ← block r₄
      let ⟨orelse, r₆, h₆⟩ ← elseBlock r₅
      return ⟨[.forEach t.pos target iter body orelse], r₆, by simp; omega⟩
    else if t.kind = .name ∧ t.text = "while" then do
      let ⟨cond, r₁, h₁⟩ ← test r
      let ⟨r₂, h₂⟩ ← expect ":" r₁
      let ⟨body, r₃, h₃⟩ ← block r₂
      let ⟨orelse, r₄, h₄⟩ ← elseBlock r₃
      return ⟨[.whileDo t.pos cond body orelse], r₄, by simp; omega⟩
    else simpleStmts (t :: r)
termination_by 8 * ts.length + 2
decreasing_by all_goals (simp only [List.length_cons]; omega)

/-- The rest of an `if` or `elif`, whose word stands at a position. -/
def ifStmt (pos : Pos) (ts : List Token) : Parse Stmt ts.length := do
  let ⟨cond, r₁, h₁⟩ ← test ts
  let ⟨r₂, h₂⟩ ← expect ":" r₁
  let ⟨body, r₃, h₃⟩ ← block r₂
  match eat? "elif" r₃ with
  | some ⟨r₄, h₄⟩ =>
    let ⟨s, r₅, h₅⟩ ← ifStmt (peek r₃).pos r₄
    have left : r₃.length < ts.length := Nat.lt_trans h₃ (Nat.lt_trans h₂ h₁)
    return ⟨.ifElse pos cond body [s], r₅, Nat.lt_trans h₅ (Nat.lt_trans h₄ left)⟩
  | none =>
    let ⟨orelse, r₄, h₄⟩ ← elseBlock r₃
    have left : r₃.length < ts.length := Nat.lt_trans h₃ (Nat.lt_trans h₂ h₁)
    return ⟨.ifElse pos cond body orelse, r₄, Nat.lt_of_lt_of_le h₄ left⟩
termination_by 8 * ts.length + 1
decreasing_by all_goals omega

/-- The block of an `else`, if there is one. -/
def elseBlock (ts : List Token) : Parse Block (ts.length + 1) :=
  match eat? "else" ts with
  | none => .ok ⟨[], ts, length_lt_succ ts⟩
  | some ⟨r, h⟩ => do
    let ⟨r₁, h₁⟩ ← expect ":" r
    let ⟨body, r₂, h₂⟩ ← block r₁
    return ⟨body, r₂, by omega⟩
termination_by 8 * ts.length
decreasing_by omega

/-- The statements after the colon of a compound statement. -/
def block (ts : List Token) : Parse Block ts.length :=
  match ts with
  | [] => invalid []
  | t :: r =>
    if t.kind = .newline then
      match r with
      | [] => fail .block []
      | t' :: r' =>
        if t'.kind = .indent then do
          let ⟨body, r₁, h₁⟩ ← statements true r'
          let ⟨r₂, h₂⟩ := closeBlock r₁
          return ⟨body, r₂, by simp; omega⟩
        else fail .block (t' :: r')
    else simpleStmts (t :: r)
termination_by 8 * ts.length

end

/-- The block that a list of tokens writes. -/
def ofTokens (ts : List Token) : Except SyntaxError Block := do
  let ⟨b, _, _⟩ ← statements false ts
  return b

end ValidUsage.Parser

namespace ValidUsage

/-- The block that a text writes. -/
def parse (s : List Char) : Except SyntaxError Block := do
  Parser.ofTokens (← tokenize s)

end ValidUsage
