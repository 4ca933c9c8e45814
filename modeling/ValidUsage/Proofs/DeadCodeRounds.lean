import ValidUsage.Proofs.Settled
import ValidUsage.Proofs.Uses

/-!
# Rounds over dead code

A round says that it takes something away when a statement goes or when a block has nothing but
comments left. It also rewrites what it does not report: an `if` without statements in its first
block becomes one with the opposite condition. Such a rewriting keeps all names and all bindings, so
the next round finds the same names unused and finds nothing to do.

Dead code never asserts anything: the statements that do are the same after any number of rounds,
unless a loop goes together with its `else`.
-/

namespace ValidUsage

namespace Stmt

/-- Whether a statement asserts something: it is an expression and no comment. -/
def asserts : Stmt → Bool
  | expr p value => !(expr p value).isComment
  | _ => false

/-- Whether the first block of a statement, if it has blocks, is not empty. -/
def hasBody : Stmt → Bool
  | ifElse _ _ body _ | forEach _ _ _ body _ | whileDo _ _ body _ => !body.isEmpty
  | _ => true

/-- Whether a statement is a loop over elements with an `else`. -/
def hasLoopElse : Stmt → Bool
  | forEach _ _ _ _ orelse => !orelse.isEmpty
  | _ => false

end Stmt

namespace Block

/-- The statements that assert something, blocks within blocks included. -/
def assertions (b : Block) : List Stmt := b.statements.filter Stmt.asserts

/-- Whether a statement and all its blocks have statements; there need not be an `else`. -/
def isFilled (b : Block) : Bool := !b.isEmpty && b.statements.all Stmt.hasBody

/-- Whether no loop over elements has an `else`. -/
def isElseFree (b : Block) : Bool := b.statements.all fun s => !s.hasLoopElse

/-- The names in the expressions of a block, in their order. -/
def names (b : Block) : List String := b.walk.filterMap Expr.name?

/-- A name is mentioned as often as it is among the names of the block. -/
theorem mentions_eq_count (b : Block) (name : String) : b.mentions name = b.names.count name := by
  rw [mentions, names]
  induction b.walk with
  | nil => rfl
  | cons e es ih => cases h : e.name? <;> simp [List.countP_cons, h, ih, List.count_cons]

/-! ## Lists of statements -/

@[simp] theorem assertions_nil : assertions [] = [] := rfl

@[simp] theorem isElseFree_nil : isElseFree [] = true := rfl

/-- The statements of two blocks, blocks within them included. -/
theorem statements_append (b c : Block) : (b ++ c).statements = b.statements ++ c.statements := by
  induction b with
  | nil => rfl
  | cons s ss ih => simpa [statements, Stmt.nestedBlock] using ih

/-- The names of two blocks. -/
theorem names_append (b c : Block) : names (b ++ c) = names b ++ names c := by
  induction b with
  | nil => rfl
  | cons s ss ih => simpa [names, walk, Stmt.walkBlock] using ih

private theorem assigned_append (b c : Block) :
    Stmt.assignedBlock (b ++ c) = Stmt.assignedBlock b ++ Stmt.assignedBlock c := by
  induction b with
  | nil => rfl
  | cons s ss ih => simpa [Stmt.assignedBlock] using ih

/-- What two blocks assert. -/
theorem assertions_append (b c : Block) :
    (b ++ c).assertions = b.assertions ++ c.assertions := by
  simp [assertions, statements_append]

/-- Whether no loop in two blocks has an `else`. -/
theorem isElseFree_append (b c : Block) :
    isElseFree (b ++ c) = (isElseFree b && isElseFree c) := by
  simp [isElseFree, statements_append]

end Block

namespace Stmt

open Block

/-! ## A round that takes nothing away -/

/-- Rounds with some unused names leave the second statements as they are, and these have the names
and the bindings of the first ones; they are the first ones, if no block of those is empty. -/
structure Steady (unused : List String) (b c : Block) : Prop where
  /-- The next round leaves everything as it is. -/
  again : pruneStmts unused c = (c, false)
  /-- The names are the same. -/
  names : c.names = b.names
  /-- The bindings are the same. -/
  assigned : assignedBlock c = assignedBlock b
  /-- The statements are the same, if no block is empty. -/
  same : b.statements.all hasBody = true → c = b

variable {unused : List String}

/-- A round leaves an empty block as it is. -/
theorem Steady.nil : Steady unused [] [] := ⟨rfl, rfl, rfl, fun _ => rfl⟩

/-- A statement that a round leaves as it is. -/
theorem Steady.of_prune {s : Stmt} (h : prune unused s = ⟨some s, false⟩) :
    Steady unused [s] [s] where
  again := by simp [pruneStmts, h]
  names := rfl
  assigned := rfl
  same _ := rfl

/-- A round leaves a statement and those behind it as they are when it leaves each. -/
theorem Steady.cons {s t : Stmt} {ss ts : Block} (hs : Steady unused [s] [t])
    (hss : Steady unused ss ts) : Steady unused (s :: ss) (t :: ts) where
  again := by
    have ht := hs.again
    simp only [pruneStmts] at ht ⊢
    split at ht
    · next u hleft =>
      simp only [Prod.mk.injEq, List.cons.injEq, and_true, Bool.or_false] at ht
      simp [ht, hss.again]
    · simp at ht
  names := by
    rw [← List.singleton_append, names_append, hs.names, hss.names, ← names_append]
    rfl
  assigned := by
    rw [← List.singleton_append, assigned_append, hs.assigned, hss.assigned, ← assigned_append]
    rfl
  same h := by
    rw [← List.singleton_append (l := ss), statements_append, List.all_append,
      Bool.and_eq_true] at h
    rw [List.singleton_inj.1 (hs.same h.1), hss.same h.2]

/-- A block with something besides comments is left. -/
theorem settle_of_open {c : Block} {changed : Bool} (h : c.all isComment = false) :
    settle c changed = ⟨some c, changed⟩ := by
  have hne : c ≠ [] := by
    rintro rfl
    simp at h
  simp [settle, h, hne]

/-- Of an empty block nothing is left. -/
theorem settle_nil (changed : Bool) : settle [] changed = ⟨none, changed⟩ := rfl

/-- A round leaves nothing without a change only of an empty block. -/
theorem eq_nil_of_pruneStmts {b : Block} (h : pruneStmts unused b = ([], false)) : b = [] := by
  cases b with
  | nil => rfl
  | cons s ss =>
    rw [pruneStmts] at h
    split at h <;> simp at h

/-- A block that is reported unchanged was empty, or has more than comments left. -/
theorem settle_unchanged {b : Block}
    (h : (settle (pruneStmts unused b).1 (pruneStmts unused b).2).changed = false) :
    (b = [] ∧ settle (pruneStmts unused b).1 (pruneStmts unused b).2 = ⟨none, false⟩) ∨
    ∃ c, pruneStmts unused b = (c, false) ∧ c.all isComment = false ∧
      settle (pruneStmts unused b).1 (pruneStmts unused b).2 = ⟨some c, false⟩ := by
  cases hb : pruneStmts unused b with
  | mk c changed =>
    rw [hb] at h
    by_cases hopen : c.all isComment = false
    · rw [settle_of_open hopen] at h ⊢
      obtain rfl : changed = false := h
      exact .inr ⟨c, rfl, hopen, rfl⟩
    · by_cases hnil : c = []
      · subst hnil
        obtain rfl : changed = false := h
        exact .inl ⟨eq_nil_of_pruneStmts hb, rfl⟩
      · simp [settle, hnil, hopen] at h

private theorem names_negated (e : Expr) :
    e.negated.walk.filterMap Expr.name? = e.walk.filterMap Expr.name? := by
  unfold Expr.negated
  split <;> rfl

/-- An `if` whose first block is empty, and the opposite one. -/
theorem Steady.opposite {p : Pos} {test : Expr} {orelse d : Block} (h : Steady unused orelse d)
    (hd : d.all isComment = false) :
    Steady unused [ifElse p test [] orelse] [ifElse p test.negated d []] where
  again := by simp [pruneStmts, prune, h.again, settle_of_open hd, settle_nil, settleIf]
  names := by
    have hnames := h.names
    simp only [Block.names, Block.walk] at hnames
    simp [Block.names, Block.walk, walk, walkBlock, names_negated, hnames]
  assigned := by simp [assignedBlock, Stmt.assigned, h.assigned]
  same hfull := by simp [statements, nestedBlock, nested, hasBody] at hfull

/-- An `if` with statements in its first block. -/
theorem Steady.ifElse {p : Pos} {test : Expr} {body orelse c d : Block}
    (hbody : Steady unused body c) (hc : c.all isComment = false)
    (horelse : Steady unused orelse d) (hd : d = [] ∨ d.all isComment = false) :
    Steady unused [ifElse p test body orelse] [ifElse p test c d] where
  again := by
    rcases hd with rfl | hd
    · simp [pruneStmts, prune, hbody.again, settle_of_open hc, settle_nil, settleIf]
    · simp [pruneStmts, prune, hbody.again, horelse.again, settle_of_open hc, settle_of_open hd,
        settleIf]
  names := by
    have hn := hbody.names
    have hm := horelse.names
    simp only [Block.names, Block.walk] at hn hm
    simp [Block.names, Block.walk, walk, walkBlock, hn, hm]
  assigned := by simp [assignedBlock, Stmt.assigned, hbody.assigned, horelse.assigned]
  same hfull := by
    simp only [statements, nestedBlock, nested, List.append_nil, List.all_cons, List.all_append,
      Bool.and_eq_true] at hfull
    rw [hbody.same hfull.2.1, horelse.same hfull.2.2]

/-- A loop with statements in its block. -/
theorem Steady.forEach {p : Pos} {target iter : Expr} {body c : Block} (orelse : Block)
    (hbody : Steady unused body c) (hc : c.all isComment = false) :
    Steady unused [forEach p target iter body orelse] [forEach p target iter c orelse] where
  again := by simp [pruneStmts, prune, hbody.again, settle_of_open hc]
  names := by
    have hn := hbody.names
    simp only [Block.names, Block.walk] at hn
    simp [Block.names, Block.walk, walk, walkBlock, hn]
  assigned := by simp [assignedBlock, Stmt.assigned, hbody.assigned]
  same hfull := by
    simp only [statements, nestedBlock, nested, List.append_nil, List.all_cons, List.all_append,
      Bool.and_eq_true] at hfull
    rw [hbody.same hfull.2.1]

mutual

/-- A statement that a round leaves without taking anything away. -/
theorem steady_prune : ∀ {s t : Stmt}, prune unused s = ⟨some t, false⟩ → Steady unused [s] [t]
  | ifElse p test body orelse, t, h => by
    have hchanged := congrArg Pruned.changed h
    simp only [prune, settleIf, Bool.or_eq_false_iff] at hchanged
    rw [prune] at h
    rcases settle_unchanged hchanged.1 with ⟨hnil, hb⟩ | ⟨c, hc, hcmore, hb⟩
    · rw [hb] at h
      rcases settle_unchanged hchanged.2 with ⟨-, ho⟩ | ⟨d, hd, hdmore, ho⟩
      · rw [ho] at h
        cases h
      · rw [ho] at h
        obtain rfl : ifElse p test.negated d [] = t := Option.some.inj (congrArg Pruned.left h)
        rw [hnil]
        exact (steady_pruneStmts hd).opposite hdmore
    · rw [hb] at h
      rcases settle_unchanged hchanged.2 with ⟨hnil, ho⟩ | ⟨d, hd, hdmore, ho⟩
      · rw [ho] at h
        obtain rfl : ifElse p test c [] = t := Option.some.inj (congrArg Pruned.left h)
        rw [hnil]
        exact (steady_pruneStmts hc).ifElse hcmore .nil (.inl rfl)
      · rw [ho] at h
        obtain rfl : ifElse p test c d = t := Option.some.inj (congrArg Pruned.left h)
        exact (steady_pruneStmts hc).ifElse hcmore (steady_pruneStmts hd) (.inr hdmore)
  | forEach p target iter body orelse, t, h => by
    have hchanged := congrArg Pruned.changed h
    rw [prune] at h
    rcases settle_unchanged hchanged with ⟨-, hb⟩ | ⟨c, hc, hcmore, hb⟩ <;> rw [hb] at h
    · cases h
    · obtain rfl : forEach p target iter c orelse = t := Option.some.inj (congrArg Pruned.left h)
      exact (steady_pruneStmts hc).forEach orelse hcmore
  | pass p, t, h => by simp [prune] at h
  | assign p ts v, t, h | expr p v, t, h | update p e o v, t, h | whileDo p e c o, t, h
  | breakOut p, t, h | nextRound p, t, h => by
    have hleft := congrArg Pruned.left h
    simp only [prune, Option.ite_none_left_eq_some, Option.some.injEq] at hleft
    obtain rfl := hleft.2
    exact .of_prune h

/-- Statements that a round leaves without taking anything away. -/
theorem steady_pruneStmts : ∀ {b c : Block}, pruneStmts unused b = (c, false) → Steady unused b c
  | [], c, h => by
    obtain rfl : [] = c := congrArg Prod.fst h
    exact .nil
  | s :: ss, c, h => by
    rw [pruneStmts] at h
    cases hs : prune unused s with
    | mk left changed =>
      cases left with
      | none => simp [hs] at h
      | some t =>
        simp only [hs, Prod.mk.injEq, Bool.or_eq_false_iff] at h
        obtain ⟨rfl, rfl, hrest⟩ := h
        exact (steady_prune hs).cons (steady_pruneStmts (Prod.ext rfl hrest))

end

/-! ## What asserts something stays -/

/-- A comment stands for itself and asserts nothing. -/
theorem assertions_of_isComment {s : Stmt} (h : s.isComment = true) :
    Block.assertions [s] = [] := by
  cases s with
  | expr p value => simp [Block.assertions, statements, nestedBlock, nested, asserts, h]
  | _ => simp [isComment, comment?] at h

/-- Comments assert nothing. -/
theorem assertions_of_comments {b : Block} (h : b.all isComment = true) : b.assertions = [] := by
  induction b with
  | nil => rfl
  | cons s ss ih =>
    rw [List.all_cons, Bool.and_eq_true] at h
    rw [← List.singleton_append, assertions_append, assertions_of_isComment h.1, ih h.2]
    rfl

private theorem assertions_settle (b : Block) (changed : Bool) :
    Block.assertions ((settle b changed).left.getD []) = b.assertions := by
  unfold settle
  split
  · next h =>
    obtain rfl := List.isEmpty_iff.1 h
    rfl
  · split
    · next h =>
      rw [assertions_of_comments h]
      rfl
    · rfl

/-- An `if` asserts what its blocks do. -/
theorem assertions_ifElse (p : Pos) (test : Expr) (body orelse : Block) :
    Block.assertions [ifElse p test body orelse] = body.assertions ++ orelse.assertions := by
  simp [Block.assertions, statements, nestedBlock, nested, asserts]

/-- A loop asserts what its blocks do. -/
theorem assertions_forEach (p : Pos) (target iter : Expr) (body orelse : Block) :
    Block.assertions [forEach p target iter body orelse] =
      body.assertions ++ orelse.assertions := by
  simp [Block.assertions, statements, nestedBlock, nested, asserts]

/-- No loop in an `if` has an `else` when none in its blocks has. -/
theorem isElseFree_ifElse (p : Pos) (test : Expr) (body orelse : Block) :
    isElseFree [ifElse p test body orelse] = (body.isElseFree && orelse.isElseFree) := by
  simp [isElseFree, statements, nestedBlock, nested, hasLoopElse]

/-- Nor in a loop, which must have none itself. -/
theorem isElseFree_forEach (p : Pos) (target iter : Expr) (body orelse : Block) :
    isElseFree [forEach p target iter body orelse] = (body.isElseFree && orelse.isEmpty) := by
  cases orelse <;> simp [isElseFree, statements, nestedBlock, nested, hasLoopElse]

/-- Statements without an `else` of a loop, and what takes their place: that has no such `else`
either, and it asserts the same. -/
structure Keeps (b c : Block) : Prop where
  /-- No loop has an `else`. -/
  elseFree : c.isElseFree = true
  /-- What asserts something is the same. -/
  assertions : c.assertions = b.assertions

/-- What takes the place of blocks may be put together. -/
theorem Keeps.append {b b' c c' : Block} (h : Keeps b c) (h' : Keeps b' c') :
    Keeps (b ++ b') (c ++ c') where
  elseFree := by rw [isElseFree_append, h.elseFree, h'.elseFree, Bool.and_self]
  assertions := by rw [assertions_append, assertions_append, h.assertions, h'.assertions]

/-- Settling keeps what a block asserts. -/
theorem Keeps.settle {b : Block} {x : Block × Bool} (h : Keeps b x.1) :
    Keeps b ((settle x.1 x.2).left.getD []) where
  elseFree := by
    rcases settle_left x.1 x.2 with hnone | ⟨hsome, -, -⟩
    · rw [hnone]
      rfl
    · rw [hsome]
      exact h.elseFree
  assertions := by rw [assertions_settle, h.assertions]

/-- What is left of the two blocks keeps what the `if` asserts. -/
theorem Keeps.settleIf {p : Pos} {test : Expr} {body orelse : Block} {x y : Pruned Block}
    (hx : Keeps body (x.left.getD [])) (hy : Keeps orelse (y.left.getD [])) :
    Keeps [ifElse p test body orelse] (settleIf p test x y).left.toList := by
  obtain ⟨hxe, hxa⟩ := hx
  obtain ⟨hye, hya⟩ := hy
  obtain ⟨xl, xc⟩ := x
  obtain ⟨yl, yc⟩ := y
  constructor
  · cases xl <;> cases yl <;> simp_all [Stmt.settleIf, isElseFree_ifElse]
  · rw [assertions_ifElse, ← hxa, ← hya]
    cases xl <;> cases yl <;> simp [Stmt.settleIf, assertions_ifElse]

/-- A round leaves of statements what it leaves of each of them. -/
theorem pruneStmts_cons (unused : List String) (s : Stmt) (ss : Block) :
    (pruneStmts unused (s :: ss)).1 = (prune unused s).left.toList ++ (pruneStmts unused ss).1 := by
  rw [pruneStmts]
  cases (prune unused s).left <;> rfl

mutual

/-- A round keeps what a statement asserts. -/
theorem keeps_prune (unused : List String) : ∀ s : Stmt, Block.isElseFree [s] = true →
    Keeps [s] (prune unused s).left.toList
  | ifElse p test body orelse, h => by
    rw [isElseFree_ifElse, Bool.and_eq_true] at h
    rw [prune]
    have hbody := keeps_pruneStmts unused body h.1
    have horelse := keeps_pruneStmts unused orelse h.2
    exact hbody.settle.settleIf horelse.settle
  | forEach p target iter body orelse, h => by
    rw [isElseFree_forEach, Bool.and_eq_true, List.isEmpty_iff] at h
    obtain ⟨hbody, rfl⟩ := h
    obtain ⟨he, ha⟩ := (keeps_pruneStmts unused body hbody).settle
    rw [prune]
    generalize settle (pruneStmts unused body).1 (pruneStmts unused body).2 = x at he ha ⊢
    constructor
    · cases hx : x.left <;> simp_all [isElseFree_forEach]
    · rw [assertions_forEach, ← ha]
      cases hx : x.left <;> simp [assertions_forEach]
  | assign p ts v, _ => by
    simp only [prune]
    split <;> exact ⟨rfl, rfl⟩
  | pass p, _ => ⟨rfl, rfl⟩
  | expr p v, h | update p t o v, h | whileDo p t c o, h | breakOut p, h | nextRound p, h =>
    ⟨h, rfl⟩

/-- A round keeps what statements assert. -/
theorem keeps_pruneStmts (unused : List String) : ∀ b : Block, b.isElseFree = true →
    Keeps b (pruneStmts unused b).1
  | [], _ => ⟨rfl, rfl⟩
  | s :: ss, h => by
    rw [← List.singleton_append, isElseFree_append, Bool.and_eq_true] at h
    rw [pruneStmts_cons]
    exact (keeps_prune unused s h.1).append (keeps_pruneStmts unused ss h.2)

end

end Stmt

namespace Block

open Stmt

variable {b c : Block}

/-- A round that takes nothing away leaves what the next one leaves as it is. -/
theorem prune_of_unchanged (h : b.prune = ⟨some c, false⟩) : c.prune = ⟨some c, false⟩ := by
  obtain ⟨hleft, hmore⟩ := prune_eq_some h
  obtain ⟨hagain, hnames, hassigned, -⟩ := steady_pruneStmts hleft
  have hunused : c.unusedNames = b.unusedNames := by
    simp only [unusedNames, mentions_eq_count, hnames, hassigned]
  rw [prune, hunused, hagain]
  exact settle_of_open hmore

private theorem withoutDeadCode_isFixed (h : b.withoutDeadCode = some c) :
    c.prune = ⟨some c, false⟩ := by
  induction b using withoutDeadCode.induct with
  | case1 b changed hprune =>
    rw [withoutDeadCode, hprune] at h
    cases h
  | case2 b left hprune =>
    rw [withoutDeadCode, hprune] at h
    obtain rfl := Option.some.inj h
    exact prune_of_unchanged hprune
  | case3 b left hprune ih =>
    rw [withoutDeadCode, hprune] at h
    exact ih h

/-- A round over a statement whose blocks are not empty takes something away, or leaves it. -/
theorem prune_of_isFilled (hb : b.isFilled = true) :
    b.prune.changed = true ∨ b.prune = ⟨some b, false⟩ := by
  rw [isFilled, Bool.and_eq_true, Bool.not_eq_true'] at hb
  cases hchanged : b.prune.changed with
  | true => exact .inl rfl
  | false =>
    refine .inr ?_
    rw [prune] at hchanged ⊢
    rcases settle_unchanged hchanged with ⟨rfl, -⟩ | ⟨c, hc, hmore, hleft⟩
    · cases hb.1
    · rw [hleft, (steady_pruneStmts hc).same hb.2]

private theorem hasDeadCode_iff (hb : b.isFilled = true) :
    b.hasDeadCode = true ↔ b.withoutDeadCode ≠ some b := by
  rw [hasDeadCode]
  constructor
  · intro hchanged hsame
    have hfixed := withoutDeadCode_isFixed hsame
    rw [hfixed] at hchanged
    cases hchanged
  · intro hne
    refine (prune_of_isFilled hb).resolve_right fun hsame => ?_
    exact hne (withoutDeadCode_of_prune hsame)

/-- What is left without dead code asserts the same as before. -/
theorem keeps_withoutDeadCode (hb : b.isElseFree = true) : Keeps b (b.withoutDeadCode.getD []) := by
  induction b using withoutDeadCode.induct with
  | case1 b changed hprune =>
    have h := (keeps_pruneStmts b.unusedNames b hb).settle
    rw [prune] at hprune
    rw [withoutDeadCode, prune, hprune]
    rwa [hprune] at h
  | case2 b left hprune =>
    have h := (keeps_pruneStmts b.unusedNames b hb).settle
    rw [withoutDeadCode_of_prune hprune]
    rw [prune] at hprune
    rwa [hprune] at h
  | case3 b left hprune ih =>
    have h := (keeps_pruneStmts b.unusedNames b hb).settle
    rw [withoutDeadCode, hprune]
    rw [prune] at hprune
    rw [hprune] at h
    obtain ⟨he, ha⟩ := ih h.elseFree
    exact ⟨he, ha.trans h.assertions⟩

/-- The run of the rounds: with so many rounds over a block that much is left of it. -/
inductive Rounds : Block → Option Block → Nat → Prop where
  /-- A round leaves nothing. -/
  | gone {b : Block} {changed : Bool} (h : b.prune = ⟨none, changed⟩) : Rounds b none 1
  /-- A round takes nothing away, and is the last one. -/
  | settled {b c : Block} (h : b.prune = ⟨some c, false⟩) : Rounds b (some c) 1
  /-- A round takes something away, and others follow. -/
  | again {b c : Block} {left : Option Block} {n : Nat} (h : b.prune = ⟨some c, true⟩)
      (next : Rounds c left n) : Rounds b left (n + 1)

/-- The rounds come to an end, since every round but the last one leaves fewer statements. -/
theorem exists_rounds (b : Block) : ∃ n ≤ sizeBlock b + 1, Rounds b b.withoutDeadCode n := by
  induction b using withoutDeadCode.induct with
  | case1 b changed hprune =>
    rw [withoutDeadCode, hprune]
    exact ⟨1, Nat.le_add_left 1 _, .gone hprune⟩
  | case2 b left hprune =>
    rw [withoutDeadCode, hprune]
    exact ⟨1, Nat.le_add_left 1 _, .settled hprune⟩
  | case3 b left hprune ih =>
    obtain ⟨n, hn, hrun⟩ := ih
    have hless := prune_size hprune
    rw [withoutDeadCode, hprune]
    exact ⟨n + 1, by omega, .again hprune hrun⟩

/-- The rounds over any statement come to an end, and no further round takes anything away. If the
statement and its blocks are not empty, a first round takes something away exactly if something is
taken away in the end. If no loop over elements has an `else`, what asserts something stays, in the
same order. -/
theorem rounds_withoutDeadCode (b : Block) :
    (∃ n ≤ sizeBlock b + 1, Rounds b b.withoutDeadCode n) ∧
    (∀ c, b.withoutDeadCode = some c → c.hasDeadCode = false ∧ c.withoutDeadCode = some c) ∧
    (b.isFilled = true → (b.hasDeadCode = true ↔ b.withoutDeadCode ≠ some b)) ∧
    (b.isElseFree = true → (b.withoutDeadCode.getD []).assertions = b.assertions) := by
  refine ⟨exists_rounds b, fun c hc => ?_, hasDeadCode_iff, fun h => ?_⟩
  · have hfixed := withoutDeadCode_isFixed hc
    exact ⟨by rw [hasDeadCode, hfixed], withoutDeadCode_of_prune hfixed⟩
  · exact (keeps_withoutDeadCode h).assertions

/-- A name that is bound and not used, and a requirement behind an empty branch. -/
private def unusedAndEmpty : Block :=
  [.assign .none [.name .none "x"] (.name .none "regionCount"),
   .ifElse .none (.name .none "pRegions") [.pass .none]
    [.expr .none (.call .none (.name .none "require") [.name .none "regionCount"])]]

/-- Of a statement with dead code the requirement is left. -/
theorem rounds_unusedAndEmpty :
    (∃ n ≤ 5, Rounds unusedAndEmpty unusedAndEmpty.withoutDeadCode n) ∧
    unusedAndEmpty.withoutDeadCode ≠ some unusedAndEmpty ∧
    (unusedAndEmpty.withoutDeadCode.getD []).assertions =
      [.expr .none (.call .none (.name .none "require") [.name .none "regionCount"])] := by
  obtain ⟨hends, -, hfound, hkept⟩ := rounds_withoutDeadCode unusedAndEmpty
  exact ⟨hends, (hfound rfl).1 rfl, hkept rfl⟩

end Block
end ValidUsage
