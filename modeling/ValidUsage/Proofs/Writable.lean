import ValidUsage.Layout.Source
import ValidUsage.Paragraph.Comment

/-!
# Statements that can be written

The grammar has trees that no text writes, such as a name with a blank in it or a block without
statements. `Block.isWritable` says of a block that it has none of them. What a text cannot carry
either way is the position of a node, so a block is compared with what is read back from its text
by its form without positions, in which comments stay.
-/

namespace ValidUsage

/-- Whether a text is a name: a word that is not reserved. -/
def isIdentifier (id : String) : Bool :=
  match id.toList with
  | c :: cs => Text.isNameStart c && cs.all Text.isNameChar && !isKeyword id
  | [] => false

/-- A name by its characters: it starts as names do, has only characters of names, and is not
reserved. -/
theorem isIdentifier_iff {id : String} : isIdentifier id = true ↔
    ∃ c cs, id.toList = c :: cs ∧ Text.isNameStart c = true ∧
      (∀ x ∈ cs, Text.isNameChar x = true) ∧ isKeyword id = false := by
  unfold isIdentifier
  cases id.toList with
  | nil => simp
  | cons c cs => simp [and_assoc]

/-- Whether a literal can be written; `fractions` says which numbers with a fraction can. -/
def Constant.isWritable (fractions : Binary64 → Bool) : Constant → Bool
  | .int n => n < limit64
  | .float x => fractions x
  | .bool _ | .str _ | .none => true

namespace Expr

/-- An expression without positions. -/
def unplaced (e : Expr) : Expr := e.bareBy id

@[simp] theorem bareListBy_id (es : List Expr) : bareListBy id es = es.map unplaced := by
  induction es with
  | nil => rfl
  | cons e es ih => exact congrArg (e.unplaced :: ·) ih

@[simp] theorem bareOptionBy_id (o : Option Expr) : bareOptionBy id o = o.map unplaced := by
  cases o <;> rfl

@[simp] theorem unplaced_boolOp (p : Pos) (op : BoolOp) (values : List Expr) :
    (boolOp p op values).unplaced = boolOp .none op (values.map unplaced) :=
  congrArg (boolOp .none op) (bareListBy_id values)

@[simp] theorem unplaced_binary (p : Pos) (left right : Expr) (op : BinOp) :
    (binary p left op right).unplaced = binary .none left.unplaced op right.unplaced := rfl

@[simp] theorem unplaced_unary (p : Pos) (op : UnaryOp) (operand : Expr) :
    (unary p op operand).unplaced = unary .none op operand.unplaced := rfl

@[simp] theorem unplaced_compare (p : Pos) (left : Expr) (ops : List CmpOp)
    (comparators : List Expr) : (compare p left ops comparators).unplaced =
      compare .none left.unplaced ops (comparators.map unplaced) :=
  congrArg (compare .none left.unplaced ops) (bareListBy_id comparators)

@[simp] theorem unplaced_call (p : Pos) (func : Expr) (args : List Expr) :
    (call p func args).unplaced = call .none func.unplaced (args.map unplaced) :=
  congrArg (call .none func.unplaced) (bareListBy_id args)

@[simp] theorem unplaced_member (p : Pos) (value : Expr) (attr : String) :
    (member p value attr).unplaced = member .none value.unplaced attr := rfl

@[simp] theorem unplaced_subscript (p : Pos) (value index : Expr) :
    (subscript p value index).unplaced = subscript .none value.unplaced index.unplaced := rfl

@[simp] theorem unplaced_ifExp (p : Pos) (test body orelse : Expr) :
    (ifExp p test body orelse).unplaced =
      ifExp .none test.unplaced body.unplaced orelse.unplaced := rfl

@[simp] theorem unplaced_name (p : Pos) (id : String) : (name p id).unplaced = name .none id := rfl

@[simp] theorem unplaced_const (p : Pos) (value : Constant) :
    (const p value).unplaced = const .none value := rfl

@[simp] theorem unplaced_tuple (p : Pos) (elts : List Expr) :
    (tuple p elts).unplaced = tuple .none (elts.map unplaced) :=
  congrArg (tuple .none) (bareListBy_id elts)

@[simp] theorem unplaced_list (p : Pos) (elts : List Expr) :
    (list p elts).unplaced = list .none (elts.map unplaced) :=
  congrArg (list .none) (bareListBy_id elts)

@[simp] theorem unplaced_slice (p : Pos) (lower upper step : Option Expr) :
    (slice p lower upper step).unplaced =
      slice .none (lower.map unplaced) (upper.map unplaced) (step.map unplaced) := by
  rw [← bareOptionBy_id, ← bareOptionBy_id, ← bareOptionBy_id]
  rfl

/-- Whether an expression is a slice, which stands directly in a subscript only. -/
def isSlice : Expr → Bool
  | slice .. => true
  | _ => false

/-- Whether an expression can stand before the `in` of a loop. -/
def isLoopTarget : Expr → Bool
  | ifExp .. | compare .. => false
  | unary _ op _ => op != .not
  | _ => true

/-- Induction over the parts of an expression. -/
@[elab_as_elim]
theorem partsInduction {P : Expr → Prop}
    (boolOp : ∀ p op values, (∀ e ∈ values, P e) → P (boolOp p op values))
    (binary : ∀ p left op right, P left → P right → P (binary p left op right))
    (unary : ∀ p op operand, P operand → P (unary p op operand))
    (compare : ∀ p left ops comparators, P left → (∀ e ∈ comparators, P e) →
      P (compare p left ops comparators))
    (call : ∀ p func args, P func → (∀ e ∈ args, P e) → P (call p func args))
    (member : ∀ p value attr, P value → P (member p value attr))
    (subscript : ∀ p value index, P value → P index → P (subscript p value index))
    (ifExp : ∀ p test body orelse, P test → P body → P orelse → P (ifExp p test body orelse))
    (name : ∀ p id, P (name p id))
    (const : ∀ p value, P (const p value))
    (tuple : ∀ p elts, (∀ e ∈ elts, P e) → P (tuple p elts))
    (list : ∀ p elts, (∀ e ∈ elts, P e) → P (list p elts))
    (slice : ∀ p lower upper step, (∀ e ∈ lower, P e) → (∀ e ∈ upper, P e) →
      (∀ e ∈ step, P e) → P (slice p lower upper step)) (e : Expr) : P e := by
  refine @Expr.rec P (fun es => ∀ e ∈ es, P e) (fun o => ∀ e ∈ o, P e) boolOp binary unary compare
    call member subscript ifExp name const tuple list slice ?_ ?_ ?_ ?_ e
  · simp
  · intro e es he hes e' h
    rcases List.mem_cons.1 h with rfl | h
    · exact he
    · exact hes e' h
  · simp
  · intro e he e' h
    exact Option.some.inj h ▸ he

/-- Induction over the parts of an expression for what looks into a member that is called. -/
@[elab_as_elim]
theorem receiverInduction {P : Expr → Prop}
    (boolOp : ∀ p op values, (∀ e ∈ values, P e) → P (boolOp p op values))
    (binary : ∀ p left op right, P left → P right → P (binary p left op right))
    (unary : ∀ p op operand, P operand → P (unary p op operand))
    (compare : ∀ p left ops comparators, P left → (∀ e ∈ comparators, P e) →
      P (compare p left ops comparators))
    (call : ∀ p func args, P func → (∀ q value attr, func = member q value attr → P value) →
      (∀ e ∈ args, P e) → P (call p func args))
    (member : ∀ p value attr, P value → P (member p value attr))
    (subscript : ∀ p value index, P value → P index → P (subscript p value index))
    (ifExp : ∀ p test body orelse, P test → P body → P orelse → P (ifExp p test body orelse))
    (name : ∀ p id, P (name p id))
    (const : ∀ p value, P (const p value))
    (tuple : ∀ p elts, (∀ e ∈ elts, P e) → P (tuple p elts))
    (list : ∀ p elts, (∀ e ∈ elts, P e) → P (list p elts))
    (slice : ∀ p lower upper step, (∀ e ∈ lower, P e) → (∀ e ∈ upper, P e) →
      (∀ e ∈ step, P e) → P (slice p lower upper step)) (e : Expr) : P e := by
  suffices h : P e ∧ ∀ q value attr, e = Expr.member q value attr → P value from h.1
  have each {es : List Expr} (h : ∀ e ∈ es, P e ∧ ∀ q value attr,
      e = Expr.member q value attr → P value) : ∀ e ∈ es, P e := fun e he => (h e he).1
  have option {o : Option Expr} (h : ∀ e ∈ o, P e ∧ ∀ q value attr,
      e = Expr.member q value attr → P value) : ∀ e ∈ o, P e := fun e he => (h e he).1
  induction e using partsInduction with
  | boolOp p op values ih => exact ⟨boolOp p op values (each ih), by simp⟩
  | binary p left op right ihl ihr => exact ⟨binary p left op right ihl.1 ihr.1, by simp⟩
  | unary p op operand ih => exact ⟨unary p op operand ih.1, by simp⟩
  | compare p left ops comparators ihl ih =>
    exact ⟨compare p left ops comparators ihl.1 (each ih), by simp⟩
  | call p func args ihf ih => exact ⟨call p func args ihf.1 ihf.2 (each ih), by simp⟩
  | member p value attr ih =>
    refine ⟨member p value attr ih.1, fun q value' attr' h => ?_⟩
    obtain ⟨-, rfl, -⟩ := Expr.member.inj h
    exact ih.1
  | subscript p value index ihv ihi => exact ⟨subscript p value index ihv.1 ihi.1, by simp⟩
  | ifExp p test body orelse iht ihb iho =>
    exact ⟨ifExp p test body orelse iht.1 ihb.1 iho.1, by simp⟩
  | name p id => exact ⟨name p id, by simp⟩
  | const p value => exact ⟨const p value, by simp⟩
  | tuple p elts ih => exact ⟨tuple p elts (each ih), by simp⟩
  | list p elts ih => exact ⟨list p elts (each ih), by simp⟩
  | slice p lower upper step ihl ihu ihs =>
    exact ⟨slice p lower upper step (option ihl) (option ihu) (option ihs), by simp⟩

mutual

/-- Whether an expression can be written: names are identifiers, two conditions at least are joined,
a comparison has an operator for each operand behind the first, and a slice stands directly in a
subscript. -/
def isWritable (fractions : Binary64 → Bool) : Expr → Bool
  | boolOp _ _ values => 2 ≤ values.length && areWritable fractions values
  | binary _ left _ right =>
    !left.isSlice && isWritable fractions left && (!right.isSlice && isWritable fractions right)
  | unary _ _ operand => !operand.isSlice && isWritable fractions operand
  | compare _ left ops comparators =>
    !ops.isEmpty && ops.length == comparators.length &&
      (!left.isSlice && isWritable fractions left) && areWritable fractions comparators
  | call _ func args =>
    !func.isSlice && isWritable fractions func && areWritable fractions args
  | member _ value attr => !value.isSlice && isWritable fractions value && isIdentifier attr
  | subscript _ value index =>
    !value.isSlice && isWritable fractions value && isWritable fractions index
  | ifExp _ test body orelse =>
    !test.isSlice && isWritable fractions test && (!body.isSlice && isWritable fractions body) &&
      (!orelse.isSlice && isWritable fractions orelse)
  | name _ id => isIdentifier id
  | const _ value => value.isWritable fractions
  | tuple _ elts => areWritable fractions elts
  | list _ elts => areWritable fractions elts
  | slice _ lower upper step =>
    isWritableBound fractions lower && isWritableBound fractions upper &&
      isWritableBound fractions step

/-- Whether every expression of a list can be written and none is a slice. -/
def areWritable (fractions : Binary64 → Bool) : List Expr → Bool
  | [] => true
  | e :: es => !e.isSlice && isWritable fractions e && areWritable fractions es

/-- Whether a bound of a slice can be written. -/
def isWritableBound (fractions : Binary64 → Bool) : Option Expr → Bool
  | none => true
  | some e => !e.isSlice && isWritable fractions e

end

/-- Whether an expression can be written outside of a subscript. -/
def isOperand (fractions : Binary64 → Bool) (e : Expr) : Bool :=
  !e.isSlice && e.isWritable fractions

variable {fractions : Binary64 → Bool}

/-- Operands can be written when each of them can. -/
theorem areWritable_iff {es : List Expr} :
    areWritable fractions es = true ↔ ∀ e ∈ es, e.isOperand fractions = true := by
  induction es with
  | nil => simp [areWritable]
  | cons e es ih => simp [areWritable, isOperand, ih]

/-- A bound can be written when it is left out or can be. -/
theorem isWritableBound_iff {o : Option Expr} :
    isWritableBound fractions o = true ↔ ∀ e ∈ o, e.isOperand fractions = true := by
  cases o <;> simp [isWritableBound, isOperand]

end Expr

/-- Whether a text can stand in a comment line and be read from it: nothing blank at its ends and no
end of line. -/
def isCommentText (text : String) : Bool :=
  Text.trim text.toList == text.toList && !text.toList.contains '\n'

namespace Stmt

/-- Induction over the statements of the blocks of a statement. -/
@[elab_as_elim]
theorem partsInduction {P : Stmt → Prop}
    (assign : ∀ p targets value, P (assign p targets value))
    (update : ∀ p target op value, P (update p target op value))
    (ifElse : ∀ p test body orelse, (∀ s ∈ body, P s) → (∀ s ∈ orelse, P s) →
      P (ifElse p test body orelse))
    (forEach : ∀ p target iter body orelse, (∀ s ∈ body, P s) → (∀ s ∈ orelse, P s) →
      P (forEach p target iter body orelse))
    (whileDo : ∀ p test body orelse, (∀ s ∈ body, P s) → (∀ s ∈ orelse, P s) →
      P (whileDo p test body orelse))
    (expr : ∀ p value, P (expr p value)) (pass : ∀ p, P (pass p))
    (breakOut : ∀ p, P (breakOut p)) (nextRound : ∀ p, P (nextRound p)) (s : Stmt) : P s := by
  refine @Stmt.rec P (fun ss => ∀ s ∈ ss, P s) assign update ifElse forEach whileDo expr pass
    breakOut nextRound ?_ ?_ s
  · simp
  · intro s ss hs hss s' h
    rcases List.mem_cons.1 h with rfl | h
    · exact hs
    · exact hss s' h

mutual

/-- A statement without positions. -/
def unplaced : Stmt → Stmt
  | assign _ targets value => assign .none (targets.map Expr.unplaced) value.unplaced
  | update _ target op value => update .none target.unplaced op value.unplaced
  | ifElse _ test body orelse =>
    ifElse .none test.unplaced (unplacedBlock body) (unplacedBlock orelse)
  | forEach _ target iter body orelse =>
    forEach .none target.unplaced iter.unplaced (unplacedBlock body) (unplacedBlock orelse)
  | whileDo _ test body orelse =>
    whileDo .none test.unplaced (unplacedBlock body) (unplacedBlock orelse)
  | expr _ value => expr .none value.unplaced
  | pass _ => pass .none
  | breakOut _ => breakOut .none
  | nextRound _ => nextRound .none

/-- Every statement of a block without positions. -/
def unplacedBlock : Block → Block
  | [] => []
  | s :: ss => unplaced s :: unplacedBlock ss

end

/-- Whether a statement is a comment does not depend on positions. -/
theorem isComment_unplaced (s : Stmt) : s.unplaced.isComment = s.isComment := by
  cases s with
  | expr p value =>
    cases value with
    | call q func args =>
      cases func with
      | name r id =>
        match args with
        | [] => rfl
        | arg :: arg' :: rest =>
          cases arg with
          | const t c => cases c <;> rfl
          | _ => rfl
        | [arg] =>
          cases arg with
          | const t c => cases c <;> rfl
          | _ => rfl
      | _ => rfl
    | _ => rfl
  | _ => rfl

/-- A block that is one statement without its positions is one with them. -/
theorem unplacedBlock_eq_singleton {b : Block} {s : Stmt} (h : unplacedBlock b = [s]) :
    ∃ s', b = [s'] ∧ s'.unplaced = s := by
  cases b with
  | nil => exact absurd h nofun
  | cons s' ss =>
    obtain ⟨hs, hss⟩ := List.cons.inj h
    cases ss with
    | nil => exact ⟨s', rfl, hs⟩
    | cons s'' ss => exact absurd hss nofun

mutual

/-- Whether a statement can be written: no block is empty but that of an absent `else`, an
assignment has a target, and a comment stands on one line. -/
def isWritable (fractions : Binary64 → Bool) : Stmt → Bool
  | assign _ targets value =>
    !targets.isEmpty && Expr.areWritable fractions targets && value.isOperand fractions
  | update _ target _ value => target.isOperand fractions && value.isOperand fractions
  | ifElse _ test body orelse =>
    test.isOperand fractions && !body.isEmpty && areWritable fractions body &&
      areWritable fractions orelse
  | forEach _ target iter body orelse =>
    target.isOperand fractions && target.isLoopTarget && iter.isOperand fractions &&
      !body.isEmpty && areWritable fractions body && areWritable fractions orelse
  | whileDo _ test body orelse =>
    test.isOperand fractions && !body.isEmpty && areWritable fractions body &&
      areWritable fractions orelse
  | expr p value => value.isOperand fractions && (expr p value).comment?.all isCommentText
  | pass _ | breakOut _ | nextRound _ => true

/-- Whether every statement of a block can be written. -/
def areWritable (fractions : Binary64 → Bool) : Block → Bool
  | [] => true
  | s :: ss => isWritable fractions s && areWritable fractions ss

end

/-- The statements of a block can be written when each of them can. -/
theorem areWritable_iff {fractions : Binary64 → Bool} {b : Block} :
    areWritable fractions b = true ↔ ∀ s ∈ b, s.isWritable fractions = true := by
  induction b with
  | nil => simp [areWritable]
  | cons s ss ih => simp [areWritable, ih]

end Stmt

namespace Block

/-- A block without positions; its comments stay. -/
def unplaced (b : Block) : Block := Stmt.unplacedBlock b

/-- Whether a block can be written; `fractions` says which numbers with a fraction may occur. -/
def isWritable (fractions : Binary64 → Bool) (b : Block) : Bool := Stmt.areWritable fractions b

end Block
end ValidUsage
