import Mathlib.Tactic.SplitIfs
import ValidUsage.Syntax.Parser

/-!
# What readers call

A reader is written here a second time, now with the readers that it calls as a parameter. What it
reads then only depends on calls that are below it: on calls for fewer tokens, and on calls for the
same tokens whose readers bind tighter. Nothing here asks for tokens that can be read.
-/

namespace ValidUsage
namespace Parser

/-- What calls come to: nothing where one of them does not end, else a value or a fault. -/
abbrev Outcome := ExceptT SyntaxError Option

/-- What was read, without the bound of the tokens after it. -/
def forget {α : Type} {n : Nat} (p : Parse α n) : Outcome (α × List Token) :=
  ExceptT.mk (some (p.map fun x => (x.value, x.rest)))

private theorem bind_eq_forget {α β : Type} {n m : Nat} {x : Outcome (α × List Token)}
    {p : Parse α n}
    {f : α × List Token → Outcome (β × List Token)} {q : Read α n → Parse β m} (hx : x = forget p)
    (h : ∀ v r hr, f (v, r) = forget (q ⟨v, r, hr⟩)) : (x >>= f) = forget (p >>= q) := by
  subst hx
  cases p with
  | error e => rfl
  | ok x => exact h x.value x.rest x.bound

private theorem eq_forget_bind {α : Type} {n m : Nat} {x : Outcome (α × List Token)} {p : Parse α n}
    {q : Read α n → Parse α m} (hx : x = forget p)
    (h : ∀ v r hr, pure (v, r) = forget (q ⟨v, r, hr⟩)) : x = forget (p >>= q) := by
  subst hx
  cases p with
  | error e => rfl
  | ok x => exact h x.value x.rest x.bound

private theorem bind_expect_eq_forget {β : Type} {m : Nat} {text : String} {ts : List Token}
    {f : { r : List Token // r.length < ts.length } → Outcome (β × List Token)}
    {q : { r : List Token // r.length < ts.length } → Parse β m}
    (h : ∀ r hr, f ⟨r, hr⟩ = forget (q ⟨r, hr⟩)) :
    ((liftM (expect text ts) : Outcome _) >>= f) = forget (expect text ts >>= q) := by
  rcases expect text ts with e | ⟨r, hr⟩
  · rfl
  · exact h r hr

/-- The readers of expressions and statements, by what they read. The loops of a reader are readers
of their own. -/
inductive Reader : Type → Type 1 where
  | sequence (k : Sequence) : Reader Expr
  | items (k : Sequence) : Reader (List Expr)
  | item (k : Sequence) : Reader Expr
  | index : Reader Expr
  | bounds : Reader (Option Expr × Option Expr)
  | bound : Reader (Option Expr)
  | test : Reader Expr
  | joined (op : BoolOp) : Reader Expr
  | operands (op : BoolOp) : Reader (List Expr)
  | operand (op : BoolOp) : Reader Expr
  | negation : Reader Expr
  | comparison : Reader Expr
  | comparators : Reader (List CmpOp × List Expr)
  | binary (l : Level) : Reader Expr
  | tighter (l : Level) : Reader Expr
  | binaryRest (l : Level) (left : Expr) : Reader Expr
  | factor : Reader Expr
  | power : Reader Expr
  | primary : Reader Expr
  | trailers (e : Expr) : Reader Expr
  | arguments (close : String) : Reader (List Expr)
  | atom : Reader Expr
  | assigned : Reader (List Expr)
  | simpleStmt : Reader Stmt
  | simpleRest : Reader Block
  | simpleStmts : Reader Block
  | statements (inside : Bool) : Reader Block
  | statement : Reader Block
  | ifStmt (pos : Pos) : Reader Stmt
  | elseBlock : Reader Block
  | block : Reader Block

/-- An outcome for each reader and all tokens. -/
abbrev Readers := ∀ {α : Type}, Reader α → List Token → Outcome (α × List Token)

namespace Reader

variable {α β : Type}

/-- What a reader reads. -/
@[simp] def read : Reader α → List Token → Outcome (α × List Token)
  | sequence k, ts => forget (Parser.sequence k ts)
  | items k, ts => forget (Parser.items k ts)
  | item k, ts => forget (Parser.item k ts)
  | index, ts => forget (Parser.index ts)
  | bounds, ts => forget (Parser.bounds ts)
  | bound, ts => forget (Parser.bound ts)
  | test, ts => forget (Parser.test ts)
  | joined op, ts => forget (Parser.joined op ts)
  | operands op, ts => forget (Parser.operands op ts)
  | operand op, ts => forget (Parser.operand op ts)
  | negation, ts => forget (Parser.negation ts)
  | comparison, ts => forget (Parser.comparison ts)
  | comparators, ts => forget (Parser.comparators ts)
  | binary l, ts => forget (Parser.binary l ts)
  | tighter l, ts => forget (Parser.tighter l ts)
  | binaryRest l left, ts => forget (Parser.binaryRest l left ts)
  | factor, ts => forget (Parser.factor ts)
  | power, ts => forget (Parser.power ts)
  | primary, ts => forget (Parser.primary ts)
  | trailers e, ts => forget (Parser.trailers e ts)
  | arguments close, ts => forget (Parser.arguments close ts)
  | atom, ts => forget (Parser.atom ts)
  | assigned, ts => forget (Parser.assigned ts)
  | simpleStmt, ts => forget (Parser.simpleStmt ts)
  | simpleRest, ts => forget (Parser.simpleRest ts)
  | simpleStmts, ts => forget (Parser.simpleStmts ts)
  | statements inside, ts => forget (Parser.statements inside ts)
  | statement, ts => forget (Parser.statement ts)
  | ifStmt pos, ts => forget (Parser.ifStmt pos ts)
  | elseBlock, ts => forget (Parser.elseBlock ts)
  | block, ts => forget (Parser.block ts)

/-- What a reader reads, given what the readers that it calls read. -/
@[simp] def step (calls : Readers) : Reader α → List Token → Outcome (α × List Token)
  | sequence k, ts => do
    let (first, r) ← calls (item k) ts
    if at? "," r then
      let (others, r') ← calls (items k) r
      return (.tuple first.pos (first :: others), r')
    else return (first, r)
  | items k, ts =>
    match eat? "," ts with
    | none => return ([], ts)
    | some ⟨r, _⟩ =>
      if k.ends r then return ([], r)
      else do
        let (e, r') ← calls (item k) r
        let (es, r'') ← calls (items k) r'
        return (e :: es, r'')
  | item k, ts =>
    match k with
    | .values => calls test ts
    | .targets => calls (binary .bitOr) ts
    | .indices => calls index ts
  | index, ts =>
    match eat? ":" ts with
    | some ⟨r, _⟩ => do
      let ((upper, step), r') ← calls bounds r
      return (.slice (peek ts).pos none upper step, r')
    | none => do
      let (e, r) ← calls test ts
      match eat? ":" r with
      | none => return (e, r)
      | some ⟨r', _⟩ =>
        let ((upper, step), r'') ← calls bounds r'
        return (.slice (peek ts).pos (some e) upper step, r'')
  | bounds, ts => do
    let (upper, r) ← calls bound ts
    match eat? ":" r with
    | none => return ((upper, none), r)
    | some ⟨r', _⟩ =>
      let (step, r'') ← calls bound r'
      return ((upper, step), r'')
  | bound, ts =>
    if at? ":" ts || at? "]" ts || at? "," ts then return (none, ts)
    else do
      let (e, r) ← calls test ts
      return (some e, r)
  | test, ts => do
    let (body, r) ← calls (joined .or) ts
    match eat? "if" r with
    | none => return (body, r)
    | some ⟨r₁, _⟩ =>
      let (cond, r₂) ← calls (joined .or) r₁
      let ⟨r₃, _⟩ ← expect "else" r₂
      let (orelse, r₄) ← calls test r₃
      return (.ifExp body.pos cond body orelse, r₄)
  | joined op, ts => do
    let (first, r) ← calls (operand op) ts
    if at? op.spelling r then
      let (others, r') ← calls (operands op) r
      return (.boolOp first.pos op (first :: others), r')
    else return (first, r)
  | operands op, ts =>
    match eat? op.spelling ts with
    | none => return ([], ts)
    | some ⟨r, _⟩ => do
      let (e, r') ← calls (operand op) r
      let (es, r'') ← calls (operands op) r'
      return (e :: es, r'')
  | operand op, ts =>
    match op with
    | .or => calls (joined .and) ts
    | .and => calls negation ts
  | negation, ts =>
    match eat? "not" ts with
    | some ⟨r, _⟩ => do
      let (e, r') ← calls negation r
      return (.unary (peek ts).pos .not e, r')
    | none => calls comparison ts
  | comparison, ts => do
    let (left, r) ← calls (binary .bitOr) ts
    let ((ops, es), r') ← calls comparators r
    match ops with
    | [] => return (left, r')
    | _ => return (.compare left.pos left ops es, r')
  | comparators, ts =>
    match cmpOp? ts with
    | none => return (([], []), ts)
    | some ⟨op, r, _⟩ => do
      let (e, r') ← calls (binary .bitOr) r
      let ((ops, es), r'') ← calls comparators r'
      return ((op :: ops, e :: es), r'')
  | binary l, ts => do
    let (left, r) ← calls (tighter l) ts
    calls (binaryRest l left) r
  | tighter l, ts =>
    match l with
    | .bitOr => calls (binary .bitXor) ts
    | .bitXor => calls (binary .bitAnd) ts
    | .bitAnd => calls (binary .shift) ts
    | .shift => calls (binary .sum) ts
    | .sum => calls (binary .product) ts
    | .product => calls factor ts
  | binaryRest l left, ts =>
    match ts with
    | [] => return (left, [])
    | t :: r =>
      match l.op? t with
      | none => return (left, t :: r)
      | some op => do
        let (right, r') ← calls (tighter l) r
        calls (binaryRest l (.binary left.pos left op right)) r'
  | factor, ts =>
    match ts with
    | [] => invalid []
    | t :: r =>
      match sign? t with
      | some op => do
        let (e, r') ← calls factor r
        return (.unary t.pos op e, r')
      | none => calls power (t :: r)
  | power, ts => do
    let (base, r) ← calls primary ts
    match eat? "**" r with
    | none => return (base, r)
    | some ⟨r₁, _⟩ =>
      let (exponent, r₂) ← calls factor r₁
      return (.binary base.pos base .pow exponent, r₂)
  | primary, ts => do
    let (e, r) ← calls atom ts
    calls (trailers e) r
  | trailers e, ts =>
    match eat? "(" ts with
    | some ⟨r, _⟩ => do
      let (args, r₁) ← calls (arguments ")") r
      calls (trailers (.call e.pos e args)) r₁
    | none =>
      match eat? "[" ts with
      | some ⟨r, _⟩ => do
        let (i, r₁) ← calls (sequence .indices) r
        let ⟨r₂, _⟩ ← expect "]" r₁
        calls (trailers (.subscript e.pos e i)) r₂
      | none =>
        match eat? "." ts with
        | some ⟨[], _⟩ => invalid []
        | some ⟨t :: r, _⟩ =>
          if t.kind = .name ∧ !isKeyword t.text then calls (trailers (.member e.pos e t.text)) r
          else invalid (t :: r)
        | none => return (e, ts)
  | arguments close, ts =>
    match eat? close ts with
    | some ⟨r, _⟩ => return ([], r)
    | none => do
      let (e, r) ← calls test ts
      match eat? "," r with
      | some ⟨r₁, _⟩ =>
        let (es, r₂) ← calls (arguments close) r₁
        return (e :: es, r₂)
      | none =>
        let ⟨r₁, _⟩ ← expect close r
        return ([e], r₁)
  | atom, ts =>
    match ts with
    | [] => invalid []
    | t :: r =>
      match t.kind with
      | .name =>
        if t.text = "True" then return (.ofBool t.pos true, r)
        else if t.text = "False" then return (.ofBool t.pos false, r)
        else if t.text = "None" then return (.const t.pos .none, r)
        else if isKeyword t.text then invalid (t :: r)
        else return (.name t.pos t.text, r)
      | .number =>
        match Literal.number? t.text.toList with
        | some value => return (.const t.pos value, r)
        | none => Parser.fail .number (t :: r)
      | .str =>
        let parts := (t :: r).takeWhile (·.kind == .str)
        let text := parts.flatMap fun t => Literal.unquote t.text.toList
        return (.const t.pos (.str (String.ofList text)), r.dropWhile (·.kind == .str))
      | .op =>
        if t.text = "(" then
          match eat? ")" r with
          | some ⟨r₁, _⟩ => return (.tuple t.pos [], r₁)
          | none => do
            let (e, r₁) ← calls (sequence .values) r
            let ⟨r₂, _⟩ ← expect ")" r₁
            return (e, r₂)
        else if t.text = "[" then do
          let (es, r₁) ← calls (arguments "]") r
          return (.list t.pos es, r₁)
        else invalid (t :: r)
      | _ => invalid (t :: r)
  | assigned, ts =>
    match eat? "=" ts with
    | none => return ([], ts)
    | some ⟨r, _⟩ => do
      let (e, r') ← calls (sequence .values) r
      let (es, r'') ← calls assigned r'
      return (e :: es, r'')
  | simpleStmt, ts =>
    match ts with
    | [] => invalid []
    | t :: r =>
      match wordStmt? t with
      | some s => return (s, r)
      | none => do
        let (first, r₁) ← calls (sequence .values) (t :: r)
        let (others, r₂) ← calls assigned r₁
        match others.reverse with
        | value :: targets => return (.assign t.pos (first :: targets.reverse) value, r₂)
        | [] =>
          match updateOp? r₁ with
          | none => return (.expr t.pos first, r₁)
          | some op =>
            let (value, r₃) ← calls (sequence .values) r₁.tail
            return (.update t.pos first op value, r₃)
  | simpleRest, ts =>
    match eat? ";" ts with
    | none => return ([], ts)
    | some ⟨r, _⟩ =>
      if (peek r).kind = .newline then return ([], r)
      else do
        let (s, r') ← calls simpleStmt r
        let (ss, r'') ← calls simpleRest r'
        return (s :: ss, r'')
  | simpleStmts, ts => do
    let (s, r) ← calls simpleStmt ts
    let (ss, r') ← calls simpleRest r
    match r' with
    | t :: r'' => if t.kind = .newline then return (s :: ss, r'') else invalid (t :: r'')
    | [] => invalid []
  | statements inside, ts =>
    match ts with
    | [] => return ([], [])
    | t :: r =>
      if endsBlock inside t then return ([], t :: r)
      else do
        let (ss, r₁) ← calls statement (t :: r)
        let (ss', r₂) ← calls (statements inside) r₁
        return (ss ++ ss', r₂)
  | statement, ts =>
    match ts with
    | [] => invalid []
    | t :: r =>
      if t.kind = .indent then Parser.fail .indent (t :: r)
      else if t.kind = .name ∧ t.text = "if" then do
        let (s, r') ← calls (ifStmt t.pos) r
        return ([s], r')
      else if t.kind = .name ∧ t.text = "for" then do
        let (target, r₁) ← calls (sequence .targets) r
        let ⟨r₂, _⟩ ← expect "in" r₁
        let (iter, r₃) ← calls (sequence .values) r₂
        let ⟨r₄, _⟩ ← expect ":" r₃
        let (body, r₅) ← calls block r₄
        let (orelse, r₆) ← calls elseBlock r₅
        return ([.forEach t.pos target iter body orelse], r₆)
      else if t.kind = .name ∧ t.text = "while" then do
        let (cond, r₁) ← calls test r
        let ⟨r₂, _⟩ ← expect ":" r₁
        let (body, r₃) ← calls block r₂
        let (orelse, r₄) ← calls elseBlock r₃
        return ([.whileDo t.pos cond body orelse], r₄)
      else calls simpleStmts (t :: r)
  | ifStmt pos, ts => do
    let (cond, r₁) ← calls test ts
    let ⟨r₂, _⟩ ← expect ":" r₁
    let (body, r₃) ← calls block r₂
    match eat? "elif" r₃ with
    | some ⟨r₄, _⟩ =>
      let (s, r₅) ← calls (ifStmt (peek r₃).pos) r₄
      return (.ifElse pos cond body [s], r₅)
    | none =>
      let (orelse, r₄) ← calls elseBlock r₃
      return (.ifElse pos cond body orelse, r₄)
  | elseBlock, ts =>
    match eat? "else" ts with
    | none => return ([], ts)
    | some ⟨r, _⟩ => do
      let ⟨r₁, _⟩ ← expect ":" r
      calls block r₁
  | block, ts =>
    match ts with
    | [] => invalid []
    | t :: r =>
      if t.kind = .newline then
        match r with
        | [] => Parser.fail .block []
        | t' :: r' =>
          if t'.kind = .indent then do
            let (body, r₁) ← calls (statements true) r'
            return (body, (closeBlock r₁).1)
          else Parser.fail .block (t' :: r')
      else calls simpleStmts (t :: r)

/-- How loose a reader is. A reader that goes on after its first item calls nothing for the tokens
that it is given, so it is the tightest. -/
@[simp] def level : Reader α → Nat
  | items _ | operands _ | comparators | binaryRest .. | trailers _ | assigned | simpleRest
  | elseBlock => 0
  | atom => 6
  | primary => 7
  | power => 8
  | factor => 9
  | tighter l => 2 * l.rank + 10
  | binary l => 2 * l.rank + 11
  | comparison => 22
  | negation => 23
  | operand op => looseness op
  | joined op => looseness op + 1
  | test => 28
  | bound | arguments _ => 29
  | index | bounds => 30
  | item _ => 31
  | sequence _ => 32
  | simpleStmt | ifStmt _ => 33
  | simpleStmts => 34
  | statement | block => 35
  | statements _ => 36

/-- Whether a call is for fewer tokens than another one, or for the same tokens and binds
tighter. -/
def Below (g' : Reader β) (ts' : List Token) (g : Reader α) (ts : List Token) : Prop :=
  ts'.length < ts.length ∨ ts' = ts ∧ g'.level < g.level

/-- Whether calls give what the readers read, below a reader for some tokens. -/
def Meets (calls : Readers) (g : Reader α) (ts : List Token) : Prop :=
  ∀ {β : Type} (g' : Reader β) (ts' : List Token), g'.Below ts' g ts → calls g' ts' = g'.read ts'

section Meets

variable {calls : Readers} {g : Reader α} {ts r : List Token}

/-- A reader may call a tighter one on the same tokens. -/
theorem Meets.same (h : Meets calls g ts) (g' : Reader β) (hl : g'.level < g.level) :
    calls g' ts = g'.read ts := h g' ts (.inr ⟨rfl, hl⟩)

/-- It may call any reader on fewer tokens. -/
theorem Meets.shorter (h : Meets calls g ts) (g' : Reader β) (hr : r.length < ts.length) :
    calls g' r = g'.read r := h g' r (.inl hr)

end Meets

section Step

variable {calls : Readers} {ts : List Token}

private theorem step_sequence {k : Sequence} (h : Meets calls (sequence k) ts) :
    (sequence k).step calls ts = (sequence k).read ts := by
  rw [step, read, Parser.sequence]
  refine bind_eq_forget (h.same (item k) (by simp)) fun first r hr => ?_
  dsimp only
  split
  · exact bind_eq_forget (h.shorter (items k) hr) fun _ _ _ => rfl
  · rfl

private theorem step_items {k : Sequence} (h : Meets calls (items k) ts) :
    (items k).step calls ts = (items k).read ts := by
  rw [step, read, Parser.items]
  rcases eat? "," ts with _ | ⟨r, hr⟩
  · rfl
  dsimp only
  split
  · rfl
  · refine bind_eq_forget (h.shorter (item k) hr) fun e r' hr' => ?_
    exact bind_eq_forget (h.shorter (items k) (Nat.lt_trans hr' hr)) fun _ _ _ => rfl

private theorem step_item {k : Sequence} (h : Meets calls (item k) ts) :
    (item k).step calls ts = (item k).read ts := by
  cases k with
  | values => rw [step, read, Parser.item]; exact h.same test (by simp)
  | targets =>
    rw [step, read, Parser.item]; exact h.same (binary .bitOr) (by decide)
  | indices => rw [step, read, Parser.item]; exact h.same index (by simp)

private theorem step_index (h : Meets calls index ts) : index.step calls ts = index.read ts := by
  rw [step, read, Parser.index]
  rcases eat? ":" ts with _ | ⟨r, hr⟩
  · refine bind_eq_forget (h.same test (by simp)) fun e r hr => ?_
    dsimp only
    rcases eat? ":" r with _ | ⟨r', hr'⟩
    · rfl
    · exact bind_eq_forget (h.shorter bounds (Nat.lt_trans hr' hr)) fun _ _ _ => rfl
  · exact bind_eq_forget (h.shorter bounds hr) fun _ _ _ => rfl

private theorem step_bounds (h : Meets calls bounds ts) :
    bounds.step calls ts = bounds.read ts := by
  rw [step, read, Parser.bounds]
  refine bind_eq_forget (h.same bound (by simp)) fun upper r hr => ?_
  dsimp only
  rcases eat? ":" r with _ | ⟨r', hr'⟩
  · rfl
  · exact bind_eq_forget (h.shorter bound (by omega)) fun _ _ _ => rfl

private theorem step_bound (h : Meets calls bound ts) : bound.step calls ts = bound.read ts := by
  rw [step, read, Parser.bound]
  split
  · rfl
  · exact bind_eq_forget (h.same test (by simp)) fun _ _ _ => rfl

private theorem step_test (h : Meets calls test ts) : test.step calls ts = test.read ts := by
  rw [step, read, Parser.test]
  refine bind_eq_forget (h.same (joined .or) (by decide)) fun body r hr => ?_
  dsimp only
  rcases eat? "if" r with _ | ⟨r₁, hr₁⟩
  · rfl
  refine bind_eq_forget (h.shorter (joined .or) (Nat.lt_trans hr₁ hr)) fun cond r₂ hr₂ => ?_
  dsimp only
  refine bind_expect_eq_forget fun r₃ hr₃ => ?_
  have left : r₃.length < ts.length := by omega
  exact bind_eq_forget (h.shorter test left) fun _ _ _ => rfl

private theorem step_joined {op : BoolOp} (h : Meets calls (joined op) ts) :
    (joined op).step calls ts = (joined op).read ts := by
  rw [step, read, Parser.joined]
  refine bind_eq_forget (h.same (operand op) (by simp)) fun first r hr => ?_
  dsimp only
  split
  · exact bind_eq_forget (h.shorter (operands op) hr) fun _ _ _ => rfl
  · rfl

private theorem step_operands {op : BoolOp} (h : Meets calls (operands op) ts) :
    (operands op).step calls ts = (operands op).read ts := by
  rw [step, read, Parser.operands]
  rcases eat? op.spelling ts with _ | ⟨r, hr⟩
  · rfl
  refine bind_eq_forget (h.shorter (operand op) hr) fun e r' hr' => ?_
  exact bind_eq_forget (h.shorter (operands op) (Nat.lt_trans hr' hr)) fun _ _ _ => rfl

private theorem step_operand {op : BoolOp} (h : Meets calls (operand op) ts) :
    (operand op).step calls ts = (operand op).read ts := by
  cases op with
  | or =>
    rw [step, read, Parser.operand]; exact h.same (joined .and) (by decide)
  | and => rw [step, read, Parser.operand]; exact h.same negation (by decide)

private theorem step_negation (h : Meets calls negation ts) :
    negation.step calls ts = negation.read ts := by
  rw [step, read, Parser.negation]
  rcases eat? "not" ts with _ | ⟨r, hr⟩
  · exact h.same comparison (by simp)
  · exact bind_eq_forget (h.shorter negation hr) fun _ _ _ => rfl

private theorem step_comparison (h : Meets calls comparison ts) :
    comparison.step calls ts = comparison.read ts := by
  rw [step, read, Parser.comparison]
  refine bind_eq_forget (h.same (binary .bitOr) (by decide)) fun left r hr => ?_
  refine bind_eq_forget (h.shorter comparators hr) fun ⟨ops, es⟩ r' hr' => ?_
  cases ops <;> rfl

private theorem step_comparators (h : Meets calls comparators ts) :
    comparators.step calls ts = comparators.read ts := by
  rw [step, read, Parser.comparators]
  rcases cmpOp? ts with _ | ⟨op, r, hr⟩
  · rfl
  refine bind_eq_forget (h.shorter (binary .bitOr) hr) fun e r' hr' => ?_
  exact bind_eq_forget (h.shorter comparators (Nat.lt_trans hr' hr)) fun _ _ _ => rfl

private theorem step_binary {l : Level} (h : Meets calls (binary l) ts) :
    (binary l).step calls ts = (binary l).read ts := by
  rw [step, read, Parser.binary]
  refine bind_eq_forget (h.same (tighter l) (by simp)) fun left r hr => ?_
  exact eq_forget_bind (h.shorter (binaryRest l left) hr) fun _ _ _ => rfl

private theorem step_tighter {l : Level} (h : Meets calls (tighter l) ts) :
    (tighter l).step calls ts = (tighter l).read ts := by
  cases l with
  | bitOr => rw [step, read, Parser.tighter]; exact h.same (binary .bitXor) (by decide)
  | bitXor => rw [step, read, Parser.tighter]; exact h.same (binary .bitAnd) (by decide)
  | bitAnd => rw [step, read, Parser.tighter]; exact h.same (binary .shift) (by decide)
  | shift => rw [step, read, Parser.tighter]; exact h.same (binary .sum) (by decide)
  | sum => rw [step, read, Parser.tighter]; exact h.same (binary .product) (by decide)
  | product => rw [step, read, Parser.tighter]; exact h.same factor (by decide)

private theorem step_binaryRest {l : Level} {left : Expr} (h : Meets calls (binaryRest l left) ts) :
    (binaryRest l left).step calls ts = (binaryRest l left).read ts := by
  cases ts with
  | nil => rw [step, read, Parser.binaryRest]; rfl
  | cons t r =>
    rw [step, read, Parser.binaryRest]
    rcases l.op? t with _ | op
    · rfl
    have hr := length_lt_cons t r
    refine bind_eq_forget (h.shorter (tighter l) hr) fun right r' hr' => ?_
    exact eq_forget_bind (h.shorter (binaryRest l _) (Nat.lt_trans hr' hr)) fun _ _ _ => rfl

private theorem step_factor (h : Meets calls factor ts) :
    factor.step calls ts = factor.read ts := by
  cases ts with
  | nil => rw [step, read, Parser.factor]; rfl
  | cons t r =>
    rw [step, read, Parser.factor]
    rcases sign? t with _ | op
    · exact h.same power (by decide)
    · exact bind_eq_forget (h.shorter factor (length_lt_cons t r)) fun _ _ _ => rfl

private theorem step_power (h : Meets calls power ts) : power.step calls ts = power.read ts := by
  rw [step, read, Parser.power]
  refine bind_eq_forget (h.same primary (by decide)) fun base r hr => ?_
  dsimp only
  rcases eat? "**" r with _ | ⟨r₁, hr₁⟩
  · rfl
  · exact bind_eq_forget (h.shorter factor (Nat.lt_trans hr₁ hr)) fun _ _ _ => rfl

private theorem step_primary (h : Meets calls primary ts) :
    primary.step calls ts = primary.read ts := by
  rw [step, read, Parser.primary]
  refine bind_eq_forget (h.same atom (by decide)) fun e r hr => ?_
  exact eq_forget_bind (h.shorter (trailers e) hr) fun _ _ _ => rfl

private theorem step_trailers {e : Expr} (h : Meets calls (trailers e) ts) :
    (trailers e).step calls ts = (trailers e).read ts := by
  rw [step, read, Parser.trailers]
  rcases eat? "(" ts with _ | ⟨r, hr⟩
  · dsimp only
    rcases eat? "[" ts with _ | ⟨r, hr⟩
    · dsimp only
      rcases eat? "." ts with _ | ⟨_ | ⟨t, r⟩, hr⟩
      · rfl
      · rfl
      · dsimp only
        split
        · exact eq_forget_bind (h.shorter (trailers _) (Nat.lt_trans (length_lt_cons t r) hr))
            fun _ _ _ => rfl
        · rfl
    · refine bind_eq_forget (h.shorter (sequence .indices) hr) fun i r₁ hr₁ => ?_
      dsimp only
      refine bind_expect_eq_forget fun r₂ hr₂ => ?_
      have left : r₂.length < ts.length := by omega
      exact eq_forget_bind (h.shorter (trailers _) left) fun _ _ _ => rfl
  · refine bind_eq_forget (h.shorter (arguments ")") hr) fun args r₁ hr₁ => ?_
    exact eq_forget_bind (h.shorter (trailers _) (Nat.lt_trans hr₁ hr)) fun _ _ _ => rfl

private theorem step_arguments {close : String} (h : Meets calls (arguments close) ts) :
    (arguments close).step calls ts = (arguments close).read ts := by
  rw [step, read, Parser.arguments]
  rcases eat? close ts with _ | ⟨r, hr⟩
  · refine bind_eq_forget (h.same test (by simp)) fun e r hr => ?_
    dsimp only
    rcases eat? "," r with _ | ⟨r₁, hr₁⟩
    · exact bind_expect_eq_forget fun _ _ => rfl
    · exact bind_eq_forget (h.shorter (arguments close) (Nat.lt_trans hr₁ hr)) fun _ _ _ => rfl
  · rfl

private theorem step_atom (h : Meets calls atom ts) : atom.step calls ts = atom.read ts := by
  cases ts with
  | nil => rw [step, read, Parser.atom]; rfl
  | cons t r =>
    have hr := length_lt_cons t r
    rw [step, read, Parser.atom]
    cases t.kind with
    | name =>
      dsimp only
      split_ifs <;> rfl
    | number =>
      dsimp only
      cases Literal.number? t.text.toList <;> rfl
    | op =>
      dsimp only
      split_ifs
      · rcases eat? ")" r with _ | ⟨r₁, hr₁⟩
        · refine bind_eq_forget (h.shorter (sequence .values) hr) fun e r₁ hr₁ => ?_
          exact bind_expect_eq_forget fun _ _ => rfl
        · rfl
      · exact bind_eq_forget (h.shorter (arguments "]") hr) fun _ _ _ => rfl
      · rfl
    | str | newline | indent | dedent | endMarker => rfl

private theorem step_assigned (h : Meets calls assigned ts) :
    assigned.step calls ts = assigned.read ts := by
  rw [step, read, Parser.assigned]
  rcases eat? "=" ts with _ | ⟨r, hr⟩
  · rfl
  refine bind_eq_forget (h.shorter (sequence .values) hr) fun e r' hr' => ?_
  exact bind_eq_forget (h.shorter assigned (Nat.lt_trans hr' hr)) fun _ _ _ => rfl

private theorem step_simpleStmt (h : Meets calls simpleStmt ts) :
    simpleStmt.step calls ts = simpleStmt.read ts := by
  cases ts with
  | nil => rw [step, read, Parser.simpleStmt]; rfl
  | cons t r =>
    rw [step, read, Parser.simpleStmt]
    cases wordStmt? t with
    | some s => rfl
    | none =>
      refine bind_eq_forget (h.same (sequence .values) (by decide)) fun first r₁ hr₁ => ?_
      refine bind_eq_forget (h.shorter assigned hr₁) fun others r₂ hr₂ => ?_
      dsimp only
      cases others.reverse with
      | cons value targets => rfl
      | nil =>
        dsimp only
        cases updateOp? r₁ with
        | none => rfl
        | some op =>
          have left : r₁.tail.length < (t :: r).length := by
            rw [List.length_tail]
            omega
          exact bind_eq_forget (h.shorter (sequence .values) left) fun _ _ _ => rfl

private theorem step_simpleRest (h : Meets calls simpleRest ts) :
    simpleRest.step calls ts = simpleRest.read ts := by
  rw [step, read, Parser.simpleRest]
  rcases eat? ";" ts with _ | ⟨r, hr⟩
  · rfl
  dsimp only
  split
  · rfl
  · refine bind_eq_forget (h.shorter simpleStmt hr) fun s r' hr' => ?_
    exact bind_eq_forget (h.shorter simpleRest (Nat.lt_trans hr' hr)) fun _ _ _ => rfl

private theorem step_simpleStmts (h : Meets calls simpleStmts ts) :
    simpleStmts.step calls ts = simpleStmts.read ts := by
  rw [step, read, Parser.simpleStmts]
  refine bind_eq_forget (h.same simpleStmt (by decide)) fun s r hr => ?_
  refine bind_eq_forget (h.shorter simpleRest hr) fun ss r' hr' => ?_
  cases r' with
  | nil => rfl
  | cons t r'' =>
    dsimp only
    split <;> rfl

private theorem step_statements {inside : Bool} (h : Meets calls (statements inside) ts) :
    (statements inside).step calls ts = (statements inside).read ts := by
  cases ts with
  | nil => rw [step, read, Parser.statements]; rfl
  | cons t r =>
    rw [step, read, Parser.statements]
    split
    · rfl
    · refine bind_eq_forget (h.same statement (by simp)) fun ss r₁ hr₁ => ?_
      exact bind_eq_forget (h.shorter (statements inside) hr₁) fun _ _ _ => rfl

private theorem step_statement (h : Meets calls statement ts) :
    statement.step calls ts = statement.read ts := by
  cases ts with
  | nil => rw [step, read, Parser.statement]; rfl
  | cons t r =>
    have hr := length_lt_cons t r
    rw [step, read, Parser.statement]
    split_ifs
    · rfl
    · exact bind_eq_forget (h.shorter (ifStmt t.pos) hr) fun _ _ _ => rfl
    · refine bind_eq_forget (h.shorter (sequence .targets) hr) fun target r₁ hr₁ => ?_
      refine bind_expect_eq_forget fun r₂ hr₂ => ?_
      refine bind_eq_forget (h.shorter (sequence .values) (by omega)) fun iter r₃ hr₃ => ?_
      refine bind_expect_eq_forget fun r₄ hr₄ => ?_
      refine bind_eq_forget (h.shorter block (by omega)) fun body r₅ hr₅ => ?_
      exact bind_eq_forget (h.shorter elseBlock (by omega)) fun _ _ _ => rfl
    · refine bind_eq_forget (h.shorter test hr) fun cond r₁ hr₁ => ?_
      refine bind_expect_eq_forget fun r₂ hr₂ => ?_
      refine bind_eq_forget (h.shorter block (by omega)) fun body r₃ hr₃ => ?_
      exact bind_eq_forget (h.shorter elseBlock (by omega)) fun _ _ _ => rfl
    · exact h.same simpleStmts (by decide)

private theorem step_ifStmt {pos : Pos} (h : Meets calls (ifStmt pos) ts) :
    (ifStmt pos).step calls ts = (ifStmt pos).read ts := by
  rw [step, read, Parser.ifStmt]
  refine bind_eq_forget (h.same test (by simp)) fun cond r₁ hr₁ => ?_
  refine bind_expect_eq_forget fun r₂ hr₂ => ?_
  refine bind_eq_forget (h.shorter block (Nat.lt_trans hr₂ hr₁)) fun body r₃ hr₃ => ?_
  dsimp only
  rcases eat? "elif" r₃ with _ | ⟨r₄, hr₄⟩
  · exact bind_eq_forget (h.shorter elseBlock (by omega)) fun _ _ _ => rfl
  · exact bind_eq_forget (h.shorter (ifStmt _) (by omega)) fun _ _ _ => rfl

private theorem step_elseBlock (h : Meets calls elseBlock ts) :
    elseBlock.step calls ts = elseBlock.read ts := by
  rw [step, read, Parser.elseBlock]
  rcases eat? "else" ts with _ | ⟨r, hr⟩
  · rfl
  refine bind_expect_eq_forget fun r₁ hr₁ => ?_
  exact eq_forget_bind (h.shorter block (Nat.lt_trans hr₁ hr)) fun _ _ _ => rfl

private theorem step_block (h : Meets calls block ts) : block.step calls ts = block.read ts := by
  rcases ts with _ | ⟨t, _ | ⟨t', r⟩⟩
  · rw [step, read, Parser.block]; rfl
  · rw [step, read, Parser.block]
    split
    · rfl
    · exact h.same simpleStmts (by decide)
  · rw [step, read, Parser.block]
    split_ifs
    · have hr := Nat.lt_trans (length_lt_cons t' r) (length_lt_cons t (t' :: r))
      exact bind_eq_forget (h.shorter (statements true) hr) fun _ _ _ => rfl
    · rfl
    · exact h.same simpleStmts (by decide)

/-- What a reader reads does not depend on calls that are not below it. It makes none of these: a
reader that makes a call which does not end has no outcome. -/
theorem step_eq_read {g : Reader α} (h : Meets calls g ts) : g.step calls ts = g.read ts := by
  cases g with
  | sequence k => exact step_sequence h
  | items k => exact step_items h
  | item k => exact step_item h
  | index => exact step_index h
  | bounds => exact step_bounds h
  | bound => exact step_bound h
  | test => exact step_test h
  | joined op => exact step_joined h
  | operands op => exact step_operands h
  | operand op => exact step_operand h
  | negation => exact step_negation h
  | comparison => exact step_comparison h
  | comparators => exact step_comparators h
  | binary l => exact step_binary h
  | tighter l => exact step_tighter h
  | binaryRest l left => exact step_binaryRest h
  | factor => exact step_factor h
  | power => exact step_power h
  | primary => exact step_primary h
  | trailers e => exact step_trailers h
  | arguments close => exact step_arguments h
  | atom => exact step_atom h
  | assigned => exact step_assigned h
  | simpleStmt => exact step_simpleStmt h
  | simpleRest => exact step_simpleRest h
  | simpleStmts => exact step_simpleStmts h
  | statements inside => exact step_statements h
  | statement => exact step_statement h
  | ifStmt pos => exact step_ifStmt h
  | elseBlock => exact step_elseBlock h
  | block => exact step_block h

end Step

end Reader
end Parser
end ValidUsage
