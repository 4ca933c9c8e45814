import ValidUsage.Proofs.Uses

/-!
# Trees that reading gives

What is read from a text is nearly a tree that can be written. Only a slice may also stand between
commas in a subscript, where it is written between parentheses and not read again, a loop may have a
target that is only read between parentheses, and a block may be empty. A node is formed when it is
as reading gives it, its parts aside; a tree is spelled when all its nodes are formed.
-/

namespace ValidUsage
namespace Expr

/-- Whether an expression is one that reading gives, its parts aside. -/
def isFormed (fractions : Binary64 → Bool) : Expr → Bool
  | boolOp _ _ values => 2 ≤ values.length && values.all (!·.isSlice)
  | binary _ left _ right => !left.isSlice && !right.isSlice
  | unary _ _ operand => !operand.isSlice
  | compare _ left ops comparators => !ops.isEmpty && ops.length == comparators.length &&
      !left.isSlice && comparators.all (!·.isSlice)
  | call _ func args => !func.isSlice && args.all (!·.isSlice)
  | member _ value attr => !value.isSlice && isIdentifier attr
  | subscript _ value _ => !value.isSlice
  | ifExp _ test body orelse => !test.isSlice && !body.isSlice && !orelse.isSlice
  | name _ id => isIdentifier id
  | const _ value => value.isWritable fractions
  | tuple .. => true
  | list _ elts => elts.all (!·.isSlice)
  | slice _ lower upper step =>
    lower.all (!·.isSlice) && upper.all (!·.isSlice) && step.all (!·.isSlice)

/-- Whether an expression and all its parts are formed. -/
def isSpelled (fractions : Binary64 → Bool) (e : Expr) : Bool := e.walk.all (isFormed fractions)

/-- Whether an expression is a tuple with slices. -/
def isSpread : Expr → Bool
  | tuple _ elts => elts.any isSlice
  | _ => false

variable {fractions : Binary64 → Bool}

/-- All parts of expressions have a property when all parts of each do. -/
theorem all_walkList {p : Expr → Bool} {es : List Expr} :
    (walkList es).all p = true ↔ ∀ e ∈ es, e.walk.all p = true := by
  induction es with
  | nil => simp [walkList]
  | cons e es ih =>
    simp only [walkList, List.all_append, Bool.and_eq_true, ih, List.forall_mem_cons]

/-- So it is for an expression that may be missing. -/
theorem all_walkOption {p : Expr → Bool} {o : Option Expr} :
    (walkOption o).all p = true ↔ ∀ e ∈ o, e.walk.all p = true := by
  cases o <;> simp [walkOption]

/-- Expressions are no slices when none of them is. -/
theorem all_not_isSlice_iff {es : List Expr} :
    es.all (!·.isSlice) = true ↔ ∀ e ∈ es, e.isSlice = false := by
  simp

/-- What `isWritable_iff` says of an expression. -/
private def SplitsWritable (fractions : Binary64 → Bool) (e : Expr) : Prop :=
  e.isWritable fractions = true ↔
    e.walk.all (isFormed fractions) = true ∧ e.walk.all (!·.isSpread) = true

private theorem areWritable_split {es : List Expr} (ih : ∀ e ∈ es, SplitsWritable fractions e) :
    areWritable fractions es = true ↔ es.all (!·.isSlice) = true ∧
      (walkList es).all (isFormed fractions) = true ∧ (walkList es).all (!·.isSpread) = true := by
  induction es with
  | nil => simp [areWritable, walkList]
  | cons e es ihs =>
    obtain ⟨he, hes⟩ := List.forall_mem_cons.1 ih
    simp only [areWritable, walkList, List.all_cons, List.all_append, Bool.and_eq_true, ihs hes]
    grind [SplitsWritable]

private theorem isWritableBound_split {o : Option Expr} (ih : ∀ e ∈ o, SplitsWritable fractions e) :
    isWritableBound fractions o = true ↔ o.all (!·.isSlice) = true ∧
      (walkOption o).all (isFormed fractions) = true ∧
      (walkOption o).all (!·.isSpread) = true := by
  cases o with
  | none => simp [isWritableBound, walkOption]
  | some e =>
    have he := ih e rfl
    simp only [isWritableBound, walkOption, Option.all_some, Bool.and_eq_true]
    grind [SplitsWritable]

/-- An expression can be written when it is spelled and no tuple in it has slices. -/
theorem isWritable_iff {e : Expr} : e.isWritable fractions = true ↔
    e.isSpelled fractions = true ∧ e.walk.all (!·.isSpread) = true := by
  suffices h : SplitsWritable fractions e from h
  induction e using partsInduction with
  | boolOp p op values ih =>
    have hv := areWritable_split ih
    grind [SplitsWritable, isWritable, walk, isFormed, isSpread]
  | binary p left op right ihl ihr =>
    grind [SplitsWritable, isWritable, walk, isFormed, isSpread]
  | unary p op operand ih => grind [SplitsWritable, isWritable, walk, isFormed, isSpread]
  | compare p left ops comparators ihl ihc =>
    have hc := areWritable_split ihc
    grind [SplitsWritable, isWritable, walk, isFormed, isSpread]
  | call p func args ihf iha =>
    have ha := areWritable_split iha
    grind [SplitsWritable, isWritable, walk, isFormed, isSpread]
  | member p value attr ih => grind [SplitsWritable, isWritable, walk, isFormed, isSpread]
  | subscript p value index ihv ihi =>
    grind [SplitsWritable, isWritable, walk, isFormed, isSpread]
  | ifExp p test body orelse iht ihb iho =>
    grind [SplitsWritable, isWritable, walk, isFormed, isSpread]
  | name p id => simp [SplitsWritable, isWritable, walk, isFormed, isSpread]
  | const p value => simp [SplitsWritable, isWritable, walk, isFormed, isSpread]
  | tuple p elts ih =>
    have he := areWritable_split ih
    grind [SplitsWritable, isWritable, walk, isFormed, isSpread]
  | list p elts ih =>
    have he := areWritable_split ih
    grind [SplitsWritable, isWritable, walk, isFormed, isSpread]
  | slice p lower upper step ihl ihu ihs =>
    have hl := isWritableBound_split ihl
    have hu := isWritableBound_split ihu
    have hs := isWritableBound_split ihs
    grind [SplitsWritable, isWritable, walk, isFormed, isSpread]

/-- An expression that is no slice can be written where it is no index when it can be written. -/
theorem isOperand_iff {e : Expr} : e.isOperand fractions = true ↔ e.isSlice = false ∧
    e.walk.all (isFormed fractions) = true ∧ e.walk.all (!·.isSpread) = true := by
  rw [isOperand, Bool.and_eq_true, isWritable_iff, Bool.not_eq_true']
  rfl

private theorem areWritable_iff_all {es : List Expr} : areWritable fractions es = true ↔
    es.all (!·.isSlice) = true ∧ (walkList es).all (isFormed fractions) = true ∧
      (walkList es).all (!·.isSpread) = true :=
  areWritable_split fun _ _ => isWritable_iff

end Expr

namespace Stmt

/-- Whether a statement is one that reading gives, its expressions and blocks aside. -/
def isFormed : Stmt → Bool
  | assign _ targets value => !targets.isEmpty && targets.all (!·.isSlice) && !value.isSlice
  | update _ target _ value => !target.isSlice && !value.isSlice
  | ifElse _ test _ _ | whileDo _ test _ _ => !test.isSlice
  | forEach _ target iter _ _ => !target.isSlice && !iter.isSlice
  | expr _ value => !value.isSlice
  | pass _ | breakOut _ | nextRound _ => true

/-- Whether a statement is no comment, or one whose text stands on a line. -/
def isKept (s : Stmt) : Bool := s.comment?.all isCommentText

/-- Whether a statement is not read again as it is written: it has an empty block, or a target that
is only read between parentheses. -/
def isMisread : Stmt → Bool
  | ifElse _ _ body _ | whileDo _ _ body _ => body.isEmpty
  | forEach _ target _ body _ => !target.isLoopTarget || body.isEmpty
  | _ => false

/-- Whether a statement, its expressions and the statements of its blocks are formed, and its
comments stand on lines. -/
def isSpelled (fractions : Binary64 → Bool) (s : Stmt) : Bool :=
  s.walk.all (Expr.isFormed fractions) && s.nested.all isFormed && s.nested.all isKept

end Stmt

/-- Whether the expressions and statements of a block are formed, and its comments stand on
lines. -/
def Block.isSpelled (fractions : Binary64 → Bool) (b : Block) : Bool :=
  b.walk.all (Expr.isFormed fractions) && b.statements.all Stmt.isFormed &&
    b.statements.all Stmt.isKept

namespace Stmt

variable {fractions : Binary64 → Bool}

/-- What `Block.isWritable_iff` says of a statement. -/
private def SplitsWritable (fractions : Binary64 → Bool) (s : Stmt) : Prop :=
  s.isWritable fractions = true ↔ s.isSpelled fractions = true ∧
    s.walk.all (!·.isSpread) = true ∧ s.nested.all (!·.isMisread) = true

private theorem areWritable_split {b : Block} (ih : ∀ s ∈ b, SplitsWritable fractions s) :
    areWritable fractions b = true ↔ (((walkBlock b).all (Expr.isFormed fractions) = true ∧
      (nestedBlock b).all isFormed = true) ∧ (nestedBlock b).all isKept = true) ∧
      (walkBlock b).all (!·.isSpread) = true ∧ (nestedBlock b).all (!·.isMisread) = true := by
  induction b with
  | nil => simp [areWritable, walkBlock, nestedBlock]
  | cons s ss ihs =>
    obtain ⟨hs, hss⟩ := List.forall_mem_cons.1 ih
    simp only [areWritable, walkBlock, nestedBlock, List.all_append, Bool.and_eq_true, ihs hss]
    grind [SplitsWritable, isSpelled]

/-- A statement can be written when it is spelled, no tuple has slices, and no statement in it is
misread. -/
theorem isWritable_iff {s : Stmt} : s.isWritable fractions = true ↔
    s.isSpelled fractions = true ∧ s.walk.all (!·.isSpread) = true ∧
      s.nested.all (!·.isMisread) = true := by
  suffices h : SplitsWritable fractions s from h
  induction s using partsInduction with
  | assign p targets value =>
    grind [SplitsWritable, isWritable, isSpelled, walk, nested, isFormed, isKept,
      comment?, isMisread,
      Expr.isOperand_iff, Expr.areWritable_iff_all]
  | update p target op value =>
    grind [SplitsWritable, isWritable, isSpelled, walk, nested, isFormed, isKept,
      comment?, isMisread,
      Expr.isOperand_iff]
  | ifElse p test body orelse ihb iho =>
    have hb := areWritable_split ihb
    have ho := areWritable_split iho
    grind [SplitsWritable, isWritable, isSpelled, walk, nested, isFormed, isKept,
      comment?, isMisread,
      Expr.isOperand_iff]
  | forEach p target iter body orelse ihb iho =>
    have hb := areWritable_split ihb
    have ho := areWritable_split iho
    grind [SplitsWritable, isWritable, isSpelled, walk, nested, isFormed, isKept,
      comment?, isMisread,
      Expr.isOperand_iff]
  | whileDo p test body orelse ihb iho =>
    have hb := areWritable_split ihb
    have ho := areWritable_split iho
    grind [SplitsWritable, isWritable, isSpelled, walk, nested, isFormed, isKept,
      comment?, isMisread,
      Expr.isOperand_iff]
  | expr p value =>
    grind [SplitsWritable, isWritable, isSpelled, walk, nested, isFormed, isKept,
      comment?, isMisread,
      Expr.isOperand_iff]
  | pass | breakOut | nextRound =>
    simp [SplitsWritable, isWritable, isSpelled, walk, nested, isFormed, isKept, comment?,
      isMisread]

end Stmt

/-- A block can be written when it is spelled, no tuple has slices, and no statement is misread. -/
theorem Block.isWritable_iff {fractions : Binary64 → Bool} {b : Block} :
    b.isWritable fractions = true ↔ b.isSpelled fractions = true ∧
      b.walk.all (!·.isSpread) = true ∧ b.statements.all (!·.isMisread) = true := by
  rw [Block.isSpelled, Bool.and_eq_true, Bool.and_eq_true]
  exact Stmt.areWritable_split fun _ _ => Stmt.isWritable_iff

namespace Stmt

variable {fractions : Binary64 → Bool}

/-- A block is spelled when its statements are. -/
theorem isSpelled_block {b : Block} :
    b.isSpelled fractions = true ↔ ∀ s ∈ b, s.isSpelled fractions = true := by
  induction b with
  | nil => simp [Block.isSpelled, Block.walk, Block.statements, walkBlock, nestedBlock]
  | cons s ss ih =>
    rw [List.forall_mem_cons, ← ih]
    simp only [Block.isSpelled, Block.walk, Block.statements, walkBlock, nestedBlock, isSpelled,
      List.all_append, Bool.and_eq_true]
    grind

/-- What it says of the parts of a statement that it is spelled. -/
def HasSpelledParts (fractions : Binary64 → Bool) : Stmt → Prop
  | assign _ targets value => targets ≠ [] ∧
      (∀ t ∈ targets, t.isSlice = false ∧ t.isSpelled fractions = true) ∧
      value.isSlice = false ∧ value.isSpelled fractions = true
  | update _ target _ value => (target.isSlice = false ∧ target.isSpelled fractions = true) ∧
      value.isSlice = false ∧ value.isSpelled fractions = true
  | ifElse _ test body orelse | whileDo _ test body orelse =>
      (test.isSlice = false ∧ test.isSpelled fractions = true) ∧
      (∀ s ∈ body, s.isSpelled fractions = true) ∧ ∀ s ∈ orelse, s.isSpelled fractions = true
  | forEach _ target iter body orelse =>
      (target.isSlice = false ∧ target.isSpelled fractions = true) ∧
      (iter.isSlice = false ∧ iter.isSpelled fractions = true) ∧
      (∀ s ∈ body, s.isSpelled fractions = true) ∧ ∀ s ∈ orelse, s.isSpelled fractions = true
  | expr p value => (value.isSlice = false ∧ value.isSpelled fractions = true) ∧
      (expr p value).isKept = true
  | pass _ | breakOut _ | nextRound _ => True

/-- A statement is spelled when its parts are. -/
theorem isSpelled_iff {s : Stmt} :
    s.isSpelled fractions = true ↔ s.HasSpelledParts fractions := by
  cases s with
  | assign p targets value =>
    have hslices : targets.all (!·.isSlice) = true ↔ ∀ t ∈ targets, t.isSlice = false := by simp
    simp only [HasSpelledParts, isSpelled, walk, nested, isFormed, isKept, comment?,
      Expr.isSpelled, List.all_append, List.all_cons, List.all_nil, Option.all_none,
      Bool.and_eq_true, Expr.all_walkList, Bool.not_eq_true', List.isEmpty_eq_false_iff, hslices]
    grind
  | update p target op value =>
    simp only [HasSpelledParts, isSpelled, walk, nested, isFormed, isKept, comment?,
      Expr.isSpelled, List.all_append, List.all_cons, List.all_nil, Option.all_none,
      Bool.and_eq_true, Bool.not_eq_true']
    grind
  | ifElse p test body orelse | whileDo p test body orelse =>
    rw [HasSpelledParts, ← isSpelled_block, ← isSpelled_block]
    simp only [isSpelled, walk, nested, isFormed, isKept, comment?, Expr.isSpelled, Block.isSpelled,
      Block.walk, Block.statements, List.all_append, List.all_cons, Option.all_none,
      Bool.and_eq_true, Bool.not_eq_true']
    grind
  | forEach p target iter body orelse =>
    rw [HasSpelledParts, ← isSpelled_block, ← isSpelled_block]
    simp only [isSpelled, walk, nested, isFormed, isKept, comment?, Expr.isSpelled, Block.isSpelled,
      Block.walk, Block.statements, List.all_append, List.all_cons, Option.all_none,
      Bool.and_eq_true, Bool.not_eq_true']
    grind
  | expr p value =>
    simp only [HasSpelledParts, isSpelled, walk, nested, isFormed, Expr.isSpelled, List.all_cons,
      List.all_nil, Bool.and_eq_true, Bool.not_eq_true']
    grind
  | pass p | breakOut p | nextRound p => exact ⟨fun _ => trivial, fun _ => rfl⟩

end Stmt
end ValidUsage
