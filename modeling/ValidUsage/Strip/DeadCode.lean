import ValidUsage.Strip.Fold

/-!
# Dead code

`pass`, bindings that nothing refers to and blocks without effect are taken away, and then what has
become dead by this, until nothing is left to take. Every round that changes something leaves fewer
statements (`Block.prune_size`), so the rounds come to an end.
-/

namespace ValidUsage

/-- What a round makes of a statement or a block: what is left, if anything, and whether the round
took something away. -/
structure Pruned (α : Type) where
  /-- What is left. -/
  left : Option α
  /-- Whether something was taken away. -/
  changed : Bool

namespace Stmt

mutual

/-- The names that the assignments of a statement bind. -/
def assigned : Stmt → List String
  | assign _ targets _ => targets.filterMap Expr.name?
  | ifElse _ _ body orelse | forEach _ _ _ body orelse | whileDo _ _ body orelse =>
    assignedBlock body ++ assignedBlock orelse
  | _ => []

/-- The names that the assignments of a block bind. -/
def assignedBlock : Block → List String
  | [] => []
  | s :: ss => assigned s ++ assignedBlock ss

end

mutual

/-- The number of statements in a statement, itself included. -/
def size : Stmt → Nat
  | ifElse _ _ body orelse | forEach _ _ _ body orelse | whileDo _ _ body orelse =>
    1 + (sizeBlock body + sizeBlock orelse)
  | _ => 1

/-- The number of statements in a block. -/
def sizeBlock : Block → Nat
  | [] => 0
  | s :: ss => size s + sizeBlock ss

end

/-- Whether a statement binds one name that is unused. -/
def bindsUnused (unused : List String) : Stmt → Bool
  | assign _ [.name _ id] _ => unused.contains id
  | _ => false

/-- A block of the statements that are left of one. -/
def settle (b : Block) (changed : Bool) : Pruned Block :=
  if b.isEmpty then ⟨none, changed⟩
  else if b.all isComment then ⟨none, true⟩
  else ⟨some b, changed⟩

/-- An `if` of the blocks that are left of its own. -/
def settleIf (p : Pos) (test : Expr) (body orelse : Pruned Block) : Pruned Stmt :=
  ⟨match body.left, orelse.left with
    | none, none => none
    | none, some o => some (.ifElse p test.negated o [])
    | some b, o => some (.ifElse p test b (o.getD [])),
    body.changed || orelse.changed⟩

mutual

/-- One round over a statement. -/
def prune (unused : List String) : Stmt → Pruned Stmt
  | pass _ => ⟨none, false⟩
  | ifElse p test body orelse =>
    let body := pruneStmts unused body
    let orelse := pruneStmts unused orelse
    settleIf p test (settle body.1 body.2) (settle orelse.1 orelse.2)
  | forEach p target iter body orelse =>
    let body := pruneStmts unused body
    let body := settle body.1 body.2
    ⟨body.left.map fun b => .forEach p target iter b orelse, body.changed⟩
  | s => ⟨if s.bindsUnused unused then none else some s, false⟩

/-- One round over statements: those that are left, and whether something was taken away. -/
def pruneStmts (unused : List String) : Block → Block × Bool
  | [] => ([], false)
  | s :: ss =>
    let first := prune unused s
    let rest := pruneStmts unused ss
    match first.left with
    | some s => (s :: rest.1, first.changed || rest.2)
    | none => (rest.1, true)

end

/-- The number of statements that are left. -/
def sizeLeft (x : Pruned Stmt) : Nat := (x.left.map size).getD 0

/-- The number of statements that are left of a block. -/
def sizeLeftBlock (x : Pruned Block) : Nat := (x.left.map sizeBlock).getD 0

/-- A block that is not empty has a statement. -/
theorem sizeBlock_pos {b : Block} (h : b ≠ []) : 0 < sizeBlock b := by
  cases b with
  | nil => contradiction
  | cons s ss => cases s <;> simp only [sizeBlock, size] <;> omega

/-- A round takes nothing away, or it leaves fewer statements than there were. -/
def Shrinks (before left : Nat) (changed : Bool) : Prop :=
  left ≤ before ∧ (changed = true → left < before)

/-- Settling the statements that a round leaves keeps that it shrinks the block. -/
theorem settle_shrinks {n : Nat} {x : Block × Bool} (h : Shrinks n (sizeBlock x.1) x.2) :
    Shrinks n (sizeLeftBlock (settle x.1 x.2)) (settle x.1 x.2).changed := by
  obtain ⟨h₁, h₂⟩ := h
  unfold settle
  split
  · refine ⟨Nat.zero_le n, fun hc => ?_⟩
    exact Nat.lt_of_le_of_lt (Nat.zero_le _) (h₂ hc)
  · next hne =>
    have := sizeBlock_pos (b := x.1) (by simpa using hne)
    split
    · exact ⟨Nat.zero_le n, fun _ => Nat.lt_of_lt_of_le this h₁⟩
    · exact ⟨h₁, h₂⟩

/-- An `if` of shrunk blocks is shrunk. -/
theorem settleIf_shrinks {n m : Nat} (p : Pos) (test : Expr) {x y : Pruned Block}
    (hx : Shrinks n (sizeLeftBlock x) x.changed) (hy : Shrinks m (sizeLeftBlock y) y.changed) :
    Shrinks (1 + (n + m)) (sizeLeft (settleIf p test x y)) (settleIf p test x y).changed := by
  obtain ⟨xl, xc⟩ := x
  obtain ⟨yl, yc⟩ := y
  obtain ⟨h₁, h₂⟩ := hx
  obtain ⟨h₃, h₄⟩ := hy
  cases xl <;> cases yl <;> cases xc <;> cases yc <;>
    simp_all [Shrinks, settleIf, sizeLeft, sizeLeftBlock, size, sizeBlock] <;> omega

mutual

/-- A round shrinks a statement. -/
theorem prune_shrinks (unused : List String) : ∀ s : Stmt,
    Shrinks (size s) (sizeLeft (prune unused s)) (prune unused s).changed
  | assign p ts v => by
    simp only [prune, Shrinks, sizeLeft, size]
    split <;> simp [size]
  | ifElse p test body orelse =>
    settleIf_shrinks p test (settle_shrinks (pruneStmts_shrinks unused body))
      (settle_shrinks (pruneStmts_shrinks unused orelse))
  | forEach p target iter body orelse => by
    obtain ⟨h₁, h₂⟩ := settle_shrinks (pruneStmts_shrinks unused body)
    simp only [prune, Shrinks, size]
    generalize settle (pruneStmts unused body).1 (pruneStmts unused body).2 = x at *
    obtain ⟨xl, xc⟩ := x
    cases xl with
    | none => exact ⟨Nat.zero_le _, fun _ => Nat.lt_of_lt_of_le Nat.one_pos (Nat.le_add_right 1 _)⟩
    | some b =>
      exact ⟨Nat.add_le_add_left (Nat.add_le_add_right h₁ _) 1,
        fun hc => Nat.add_lt_add_left (Nat.add_lt_add_right (h₂ hc) _) 1⟩
  | update p t o v => by simp [prune, bindsUnused, Shrinks, sizeLeft, size]
  | whileDo p test body orelse => by simp [prune, bindsUnused, Shrinks, sizeLeft, size]
  | expr p v => by simp [prune, bindsUnused, Shrinks, sizeLeft, size]
  | pass p => by simp [prune, Shrinks, sizeLeft, size]
  | breakOut p => by simp [prune, bindsUnused, Shrinks, sizeLeft, size]
  | nextRound p => by simp [prune, bindsUnused, Shrinks, sizeLeft, size]

/-- A round shrinks statements. -/
theorem pruneStmts_shrinks (unused : List String) : ∀ b : Block,
    Shrinks (sizeBlock b) (sizeBlock (pruneStmts unused b).1) (pruneStmts unused b).2
  | [] => by simp [pruneStmts, Shrinks]
  | s :: ss => by
    obtain ⟨h₁, h₂⟩ := prune_shrinks unused s
    obtain ⟨h₃, h₄⟩ := pruneStmts_shrinks unused ss
    have := sizeBlock_pos (b := [s]) (by simp)
    simp only [pruneStmts, sizeBlock, Shrinks] at this ⊢
    generalize prune unused s = x at *
    obtain ⟨xl, xc⟩ := x
    cases xl <;> cases xc <;> cases hc : (pruneStmts unused ss).2 <;>
      simp_all [sizeLeft, sizeBlock] <;> omega

end

end Stmt

namespace Block

/-- How often an expression of a block is a name. -/
def mentions (b : Block) (name : String) : Nat := b.walk.countP fun e => e.name? == some name

/-- The names that are bound by an assignment and occur nowhere else. -/
def unusedNames (b : Block) : List String :=
  (Stmt.assignedBlock b).filter fun name => b.mentions name ≤ 1

/-- One round over a whole statement of valid usage. -/
def prune (b : Block) : Pruned Block :=
  let left := Stmt.pruneStmts b.unusedNames b
  Stmt.settle left.1 left.2

/-- A round that changes something leaves fewer statements. -/
theorem prune_size {b b' : Block} (h : b.prune = ⟨some b', true⟩) :
    Stmt.sizeBlock b' < Stmt.sizeBlock b := by
  have hs := Stmt.settle_shrinks (Stmt.pruneStmts_shrinks b.unusedNames b)
  simp only [prune] at h
  rw [h] at hs
  exact hs.2 rfl

/-- Whether a round takes something away. -/
def hasDeadCode (b : Block) : Bool := b.prune.changed

/-- What is left of a statement without its dead code, if anything is. -/
def withoutDeadCode (b : Block) : Option Block :=
  match _h : b.prune with
  | ⟨none, _⟩ => none
  | ⟨some b', false⟩ => some b'
  | ⟨some b', true⟩ => withoutDeadCode b'
termination_by Stmt.sizeBlock b
decreasing_by exact prune_size _h

/-- What is left without dead code is what a round leaves that takes nothing away. -/
theorem withoutDeadCode_of_prune {b c : Block} (h : b.prune = ⟨some c, false⟩) :
    b.withoutDeadCode = some c := by
  rw [withoutDeadCode, h]

end Block
end ValidUsage
