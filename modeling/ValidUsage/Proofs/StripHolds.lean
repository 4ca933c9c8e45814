import ValidUsage.Proofs.Settled
import ValidUsage.Proofs.Visits

/-!
# What stands in a stripped statement

Stripping folds the expressions that stand in a statement, negates some conditions and leaves
statements out, and nothing else stands in what it leaves. So what is said of all statements, their
blocks aside, can be said of all that are left, if folding and negation keep it. In particular a
property of what folding gives, if negation keeps it, holds of everything in the stripped statement.
-/

namespace ValidUsage
namespace Stmt

variable {build : Build} {K L : Stmt → Prop}

/-- Whether a property of statements does not depend on their blocks, as long as there is something
in the first, and negating a condition keeps it. -/
structure IgnoresBlocks (L : Stmt → Prop) : Prop where
  /-- The branches of an `if` do not matter. -/
  branches : ∀ {p test body orelse} body' orelse', body' ≠ [] →
    L (.ifElse p test body orelse) → L (.ifElse p test body' orelse')
  /-- The block of a loop does not matter. -/
  rounds : ∀ {p target iter body orelse} body', body' ≠ [] →
    L (.forEach p target iter body orelse) → L (.forEach p target iter body' orelse)
  /-- The negation of a condition has the property. -/
  negated : ∀ {p test body orelse},
    L (.ifElse p test body orelse) → L (.ifElse p test.negated body orelse)

/-- Whether folding takes statements with one property to statements with another. What is folded of
a requirement that stays is not one of `True`. -/
structure FoldsStmts (build : Build) (K L : Stmt → Prop) : Prop extends IgnoresBlocks L where
  /-- A statement that the language lacks is left alone, with all that stands in it. -/
  outside : ∀ s, K s → s.isInLanguage = false → ∀ x, K x → L x
  /-- An assignment has the property with its value folded. -/
  assign : ∀ {p targets value} names,
    K (.assign p targets value) → L (.assign p targets (value.fold build names))
  /-- An `if` has it with its condition folded. -/
  ifElse : ∀ {p test body orelse} names,
    K (.ifElse p test body orelse) → L (.ifElse p (test.fold build names) body orelse)
  /-- A loop has it with its iterator folded. -/
  forEach : ∀ {p target iter body orelse} names,
    K (.forEach p target iter body orelse) →
      L (.forEach p target (iter.fold build names) body orelse)
  /-- A comment has it as it is. -/
  comment : ∀ {p value}, (expr p value).isComment = true → K (.expr p value) → L (.expr p value)
  /-- Another expression has it folded. -/
  expr : ∀ {p value} names, (Stmt.expr p value).isComment = false →
    (value.callName? = some Predicate.require.name →
      firstArgument? (value.fold build names) ≠ some true) →
        K (.expr p value) → L (.expr p (value.fold build names))
  /-- There is nothing about `pass`. -/
  pass : ∀ p, L (.pass p)

private theorem forall_mem_nestedBlock_append {c d : Block} : (∀ x ∈ nestedBlock (c ++ d), L x) ↔
    (∀ x ∈ nestedBlock c, L x) ∧ ∀ x ∈ nestedBlock d, L x := by
  simp [mem_nestedBlock, or_and_right, exists_or, or_imp, forall_and]

private theorem forall_mem_nestedBlock_singleton {s : Stmt} :
    (∀ x ∈ nestedBlock [s], L x) ↔ ∀ x ∈ s.nested, L x := by
  simp [nestedBlock]

private theorem forall_mem_nestedBlock_live {x : Folded} (h : ∀ y ∈ nestedBlock x.stmts, L y) :
    ∀ y ∈ nestedBlock x.live.stmts, L y := by
  rcases live_stmts x with hnil | ⟨hsame, -⟩
  · rw [hnil]
    exact nofun
  · rw [hsame]
    exact h

/-- A property holds of all statements of an `if` when it does of the `if` and of those in its
blocks. -/
theorem forall_mem_nested_ifElse {p : Pos} {test : Expr} {body orelse : Block} :
    (∀ x ∈ (ifElse p test body orelse).nested, L x) ↔ L (.ifElse p test body orelse) ∧
      (∀ x ∈ nestedBlock body, L x) ∧ ∀ x ∈ nestedBlock orelse, L x := by
  rw [nested, List.forall_mem_cons, List.forall_mem_append]

/-- So it does for a loop. -/
theorem forall_mem_nested_forEach {p : Pos} {target iter : Expr} {body orelse : Block} :
    (∀ x ∈ (forEach p target iter body orelse).nested, L x) ↔
      L (.forEach p target iter body orelse) ∧
        (∀ x ∈ nestedBlock body, L x) ∧ ∀ x ∈ nestedBlock orelse, L x := by
  rw [nested, List.forall_mem_cons, List.forall_mem_append]

/-! ## Folding -/

/-- What holds of an `if` and in its folded blocks holds in the folded `if`. -/
theorem IgnoresBlocks.foldIf (hL : IgnoresBlocks L) {p : Pos} {test : Expr} {b c : Block}
    {body orelse : Folded} (ht : L (.ifElse p test b c)) (hb : ∀ x ∈ nestedBlock body.stmts, L x)
    (ho : ∀ x ∈ nestedBlock orelse.stmts, L x) :
    ∀ x ∈ nestedBlock (foldIf p test body orelse).stmts, L x := by
  unfold Stmt.foldIf
  simp only
  split
  · split
    · rintro _ ⟨⟩
    · rename_i hne
      exact forall_mem_nestedBlock_singleton.2 (forall_mem_nested_ifElse.2
        ⟨hL.negated (hL.branches _ _ (mt List.isEmpty_iff.2 hne) ht), ho, by rintro _ ⟨⟩⟩)
  · rename_i hne
    exact forall_mem_nestedBlock_singleton.2 (forall_mem_nested_ifElse.2
      ⟨hL.branches _ _ (mt List.isEmpty_iff.2 hne) ht, hb, ho⟩)

/-- A property is passed on by folding a requirement. -/
theorem FoldsStmts.foldRequire (h : FoldsStmts build K L) {p : Pos} {value : Expr}
    (names : FoldedNames) (hc : (Stmt.expr p value).isComment = false) (hs : K (.expr p value)) :
    ∀ x ∈ nestedBlock (Stmt.foldRequire (.expr p value) p (value.fold build names)).stmts, L x := by
  have hstays (hopen : firstArgument? (value.fold build names) ≠ some true) :
      ∀ x ∈ nestedBlock [Stmt.expr p (value.fold build names)], L x :=
    forall_mem_nestedBlock_singleton.2
      (List.forall_mem_singleton.2 (h.expr names hc (fun _ => hopen) hs))
  unfold Stmt.foldRequire
  split
  · rintro _ ⟨⟩
  · rename_i hfalse
    exact hstays (by simp [hfalse])
  · rename_i hnone
    exact hstays (by simp [hnone])

private theorem forall_mem_foldBlock {b : Block} (ih : ∀ s ∈ b, ∀ names, (∀ x ∈ s.nested, K x) →
      ∀ x ∈ nestedBlock (fold build names s).stmts, L x)
    (hb : ∀ x ∈ nestedBlock b, K x) (names : FoldedNames) :
    ∀ x ∈ nestedBlock (foldBlock build names b).stmts, L x := by
  induction b generalizing names with
  | nil => exact nofun
  | cons s ss ihb =>
    rw [nestedBlock, List.forall_mem_append] at hb
    rw [foldBlock, Folded.append]
    refine forall_mem_nestedBlock_append.2 ⟨ih s List.mem_cons_self names hb.1, ?_⟩
    exact ihb (fun t ht => ih t (List.mem_cons_of_mem _ ht)) hb.2 _

/-- Folding a statement folds what stands in it. -/
theorem FoldsStmts.forall_mem_fold (h : FoldsStmts build K L) (s : Stmt) :
    ∀ names, (∀ x ∈ s.nested, K x) → ∀ x ∈ nestedBlock (fold build names s).stmts, L x := by
  induction s using Stmt.partsInduction with
  | assign p targets value =>
    intro names hs
    rw [fold]
    split
    · rintro _ ⟨⟩
    · exact forall_mem_nestedBlock_singleton.2
        (List.forall_mem_singleton.2 (h.assign names (hs _ List.mem_cons_self)))
  | ifElse p test body orelse ihb iho =>
    intro names hs
    obtain ⟨hself, hbody, horelse⟩ := forall_mem_nested_ifElse.1 hs
    have hb := forall_mem_nestedBlock_live (forall_mem_foldBlock ihb hbody names)
    have ho := forall_mem_nestedBlock_live (forall_mem_foldBlock iho horelse names)
    rw [fold]
    split
    · exact hb
    · exact ho
    · exact h.foldIf (h.ifElse names hself) hb ho
  | forEach p target iter body orelse ihb iho =>
    intro names hs
    obtain ⟨hself, hbody, horelse⟩ := forall_mem_nested_forEach.1 hs
    have hb := forall_mem_nestedBlock_live (forall_mem_foldBlock ihb hbody names)
    -- the `else` of a loop is left alone, but the language has none
    have ho : ∀ x ∈ nestedBlock orelse, L x := by
      cases orelse with
      | nil => rintro _ ⟨⟩
      | cons t ts => exact fun x hx => h.outside _ hself rfl x (horelse x hx)
    rw [fold]
    simp only
    split
    · rintro _ ⟨⟩
    · rename_i hne
      exact forall_mem_nestedBlock_singleton.2 (forall_mem_nested_forEach.2
        ⟨h.rounds _ (mt List.isEmpty_iff.2 hne) (h.forEach names hself), hb, ho⟩)
  | expr p value =>
    intro names hs
    have hself := hs _ List.mem_cons_self
    rw [fold]
    split
    · rename_i hc
      exact forall_mem_nestedBlock_singleton.2
        (List.forall_mem_singleton.2 (h.comment hc hself))
    · rename_i hc
      replace hc : (Stmt.expr p value).isComment = false := by simpa using hc
      split
      · exact h.foldRequire names hc hself
      · rename_i hcall
        exact forall_mem_nestedBlock_singleton.2
          (List.forall_mem_singleton.2 (h.expr names hc (fun hr => absurd hr hcall) hself))
  | pass p =>
    intro names hs
    exact forall_mem_nestedBlock_singleton.2 (List.forall_mem_singleton.2 (h.pass p))
  | _ =>
    intro names hs
    exact forall_mem_nestedBlock_singleton.2 fun x hx =>
      h.outside _ (hs _ List.mem_cons_self) rfl x (hs x hx)

/-! ## Taking dead code away -/

private theorem forall_mem_settle {b : Block} {changed : Bool} (hb : ∀ x ∈ nestedBlock b, L x) :
    ∀ c ∈ (settle b changed).left, c ≠ [] ∧ ∀ x ∈ nestedBlock c, L x := by
  rcases settle_left b changed with hnone | ⟨hsome, hopen⟩
  · simp [hnone]
  · rw [hsome]
    rintro c ⟨⟩
    exact ⟨by rintro rfl; simp at hopen, hb⟩

/-- What holds of an `if` and in what is left of its blocks holds in what is left of it. -/
theorem IgnoresBlocks.settleIf (hL : IgnoresBlocks L) {p : Pos} {test : Expr} {b c : Block}
    {body orelse : Pruned Block} (ht : L (.ifElse p test b c))
    (hb : ∀ d ∈ body.left, d ≠ [] ∧ ∀ x ∈ nestedBlock d, L x)
    (ho : ∀ d ∈ orelse.left, d ≠ [] ∧ ∀ x ∈ nestedBlock d, L x) :
    ∀ s ∈ (settleIf p test body orelse).left, ∀ x ∈ s.nested, L x := by
  obtain ⟨body, _⟩ := body
  obtain ⟨orelse, _⟩ := orelse
  cases body with
  | none =>
    cases orelse with
    | none => simp [Stmt.settleIf]
    | some o =>
      rintro s ⟨⟩
      obtain ⟨hne, ho⟩ := ho o rfl
      exact forall_mem_nested_ifElse.2
        ⟨hL.negated (hL.branches _ _ hne ht), ho, by rintro _ ⟨⟩⟩
  | some b' =>
    rintro s ⟨⟩
    obtain ⟨hne, hb⟩ := hb b' rfl
    refine forall_mem_nested_ifElse.2 ⟨hL.branches _ _ hne ht, hb, ?_⟩
    cases orelse with
    | none => rintro _ ⟨⟩
    | some o => exact (ho o rfl).2

private theorem forall_mem_pruneStmts {unused : List String} {b : Block}
    (ih : ∀ s ∈ b, (∀ x ∈ s.nested, L x) → ∀ t ∈ (prune unused s).left, ∀ x ∈ t.nested, L x)
    (hb : ∀ x ∈ nestedBlock b, L x) : ∀ x ∈ nestedBlock (pruneStmts unused b).1, L x := by
  induction b with
  | nil => exact nofun
  | cons s ss ihb =>
    rw [nestedBlock, List.forall_mem_append] at hb
    have hrest := ihb (fun t ht => ih t (List.mem_cons_of_mem _ ht)) hb.2
    have hs := ih s List.mem_cons_self hb.1
    rw [pruneStmts]
    split
    · rename_i t ht
      rw [nestedBlock, List.forall_mem_append]
      exact ⟨hs t ht, hrest⟩
    · exact hrest

/-- Taking dead code away negates some conditions and leaves all else that stands in a statement. -/
theorem IgnoresBlocks.forall_mem_prune (hL : IgnoresBlocks L) (unused : List String) (s : Stmt) :
    (∀ x ∈ s.nested, L x) → ∀ t ∈ (prune unused s).left, ∀ x ∈ t.nested, L x := by
  induction s using Stmt.partsInduction with
  | ifElse p test body orelse ihb iho =>
    intro hs
    obtain ⟨hself, hbody, horelse⟩ := forall_mem_nested_ifElse.1 hs
    rw [prune]
    exact hL.settleIf hself (forall_mem_settle (forall_mem_pruneStmts ihb hbody))
      (forall_mem_settle (forall_mem_pruneStmts iho horelse))
  | forEach p target iter body orelse ihb iho =>
    intro hs t ht
    obtain ⟨hself, hbody, horelse⟩ := forall_mem_nested_forEach.1 hs
    rw [prune] at ht
    obtain ⟨c, hc, rfl⟩ := Option.map_eq_some_iff.1 ht
    obtain ⟨hne, hleft⟩ := forall_mem_settle (forall_mem_pruneStmts ihb hbody) c hc
    exact forall_mem_nested_forEach.2 ⟨hL.rounds _ hne hself, hleft, horelse⟩
  | pass p => simp [prune]
  | _ =>
    intro hs t ht
    simp only [prune] at ht
    split at ht
    · exact absurd ht nofun
    · exact Option.some.inj ht ▸ hs

end Stmt

namespace Block

open Stmt

variable {build : Build} {K L : Stmt → Prop}

/-- What holds of all statements holds of those that are left without dead code. -/
theorem forall_mem_statements_withoutDeadCode (hL : IgnoresBlocks L) {b c : Block}
    (hb : ∀ x ∈ b.statements, L x) (h : b.withoutDeadCode = some c) : ∀ x ∈ c.statements, L x := by
  have hround : ∀ {b left : Block} {changed : Bool}, b.prune = ⟨some left, changed⟩ →
      (∀ x ∈ b.statements, L x) → ∀ x ∈ left.statements, L x := by
    intro b left changed hprune hb
    have hleft := forall_mem_pruneStmts (fun s _ => hL.forall_mem_prune b.unusedNames s) hb
    rwa [(prune_eq_some hprune).1] at hleft
  induction b using withoutDeadCode.induct with
  | case1 b changed hprune =>
    rw [withoutDeadCode, hprune] at h
    cases h
  | case2 b left hprune =>
    rw [withoutDeadCode, hprune] at h
    obtain rfl := Option.some.inj h
    exact hround hprune hb
  | case3 b left hprune ih =>
    rw [withoutDeadCode, hprune] at h
    exact ih (hround hprune hb) h

/-- Every statement that stripping leaves is what folding makes of one, its blocks aside, maybe with
its condition negated. -/
theorem forall_mem_statements_strip (hf : FoldsStmts build K L) {b c : Block}
    (hb : ∀ x ∈ b.statements, K x) (h : (b.strip build).block = some c) :
    ∀ x ∈ c.statements, L x := by
  refine forall_mem_statements_withoutDeadCode hf.toIgnoresBlocks ?_ h
  exact forall_mem_nestedBlock_live
    (forall_mem_foldBlock (fun s _ => hf.forall_mem_fold s) hb .empty)

end Block

/-! ## Expressions that stand in statements -/

namespace Stmt

variable {build : Build} {P Q : Role → Expr → Prop}

/-- Whether a statement, its blocks aside, is of a form that the language has, binds names, and what
stands in it has a property, by what it stands there for. -/
def Stands (P : Role → Expr → Prop) : Stmt → Prop
  | assign _ targets value => (∃ q id, targets = [.name q id]) ∧ P .assigned value
  | ifElse _ test _ _ => P .condition test
  | forEach _ target iter _ orelse => (∃ q id, target = .name q id) ∧ P .iterator iter ∧ orelse = []
  | expr p value => (expr p value).isComment = true ∨ P .statement value
  | pass _ => True
  | update .. | whileDo .. | breakOut _ | nextRound _ => False

private theorem holdsBlock_of_forall {b : Block}
    (ih : ∀ s ∈ b, (∀ x ∈ s.nested, x.Stands P) → s.Holds P)
    (h : ∀ x ∈ nestedBlock b, x.Stands P) : HoldsBlock P b :=
  holdsBlock_iff.2 fun s hs => ih s hs fun x hx => h x (mem_nestedBlock.2 ⟨s, hs, hx⟩)

private theorem holds_of_forall {s : Stmt} (h : ∀ x ∈ s.nested, x.Stands P) : s.Holds P := by
  induction s using Stmt.partsInduction with
  | ifElse p test body orelse ihb iho =>
    obtain ⟨ht, hb, ho⟩ := forall_mem_nested_ifElse.1 h
    exact ⟨ht, holdsBlock_of_forall ihb hb, holdsBlock_of_forall iho ho⟩
  | forEach p target iter body orelse ihb iho =>
    obtain ⟨⟨htarget, hiter, horelse⟩, hb, -⟩ := forall_mem_nested_forEach.1 h
    exact ⟨htarget, hiter, holdsBlock_of_forall ihb hb, horelse⟩
  | whileDo => exact (h _ List.mem_cons_self).elim
  | _ => exact h _ List.mem_cons_self

/-- What holds in a statement holds of it with its blocks aside. -/
theorem Holds.stands {s : Stmt} (h : s.Holds P) : s.Stands P := by
  cases s with
  | ifElse => exact h.1
  | forEach => exact ⟨h.1, h.2.1, h.2.2.2⟩
  | _ => exact h

/-- What stands in the statements of a block has a property if it has it in each of them. -/
theorem holdsBlock_iff_stands {b : Block} :
    HoldsBlock P b ↔ ∀ x ∈ b.statements, x.Stands P :=
  ⟨fun h x hx => (h.forall_mem_nested x hx).stands,
    holdsBlock_of_forall fun _ _ => holds_of_forall⟩

/-- A statement of such a form is in the language. -/
theorem Stands.isInLanguage {s : Stmt} (h : s.Stands P) : s.isInLanguage = true := by
  cases s with
  | assign p targets value =>
    obtain ⟨⟨q, id, rfl⟩, -⟩ := h
    rfl
  | forEach p target iter body orelse =>
    obtain ⟨-, -, rfl⟩ := h
    rfl
  | ifElse | expr | pass => rfl
  | _ => exact h.elim

/-- Whether folding takes what has one property to what has another, which negating a condition
keeps. What is folded of a requirement that stays is not one of `True`. -/
structure FoldsTo (build : Build) (P Q : Role → Expr → Prop) : Prop where
  /-- What folding gives has the property. -/
  fold : ∀ role e names, P role e → (role = .statement →
    e.callName? = some Predicate.require.name → firstArgument? (e.fold build names) ≠ some true) →
      Q role (e.fold build names)
  /-- The negation of a condition has it. -/
  negated : ∀ e, Q .condition e → Q .condition e.negated

private theorem FoldsTo.foldsStmts (h : FoldsTo build P Q) :
    FoldsStmts build (Stands P) (Stands Q) where
  branches _ _ _ ht := ht
  rounds _ _ ht := ht
  negated ht := h.negated _ ht
  outside _ hs hout := absurd hs.isInLanguage (by simp [hout])
  assign names hs := ⟨hs.1, h.fold _ _ names hs.2 nofun⟩
  ifElse names ht := h.fold _ _ names ht nofun
  forEach names hs := ⟨hs.1, h.fold _ _ names hs.2.1 nofun, hs.2.2⟩
  comment hc _ := .inl hc
  expr names hc hopen hs :=
    .inr (h.fold _ _ names (hs.resolve_left (by simp [hc])) fun _ => hopen)
  pass _ := trivial

end Stmt

/-- What stands in a stripped statement is what folding gives, or the negation of it. -/
theorem Block.holdsBlock_strip {build : Build} {P Q : Role → Expr → Prop}
    (hf : Stmt.FoldsTo build P Q) {b c : Block} (hb : Stmt.HoldsBlock P b)
    (h : (b.strip build).block = some c) : Stmt.HoldsBlock Q c :=
  Stmt.holdsBlock_iff_stands.2
    (forall_mem_statements_strip hf.foldsStmts (Stmt.holdsBlock_iff_stands.1 hb) h)

end ValidUsage
