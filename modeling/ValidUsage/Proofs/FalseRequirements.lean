import ValidUsage.Proofs.DeadCodeRounds
import ValidUsage.Proofs.Spent

/-!
# Requirements that are false in a build

Folding reports a requirement when it finds that what it requires is false. Then come the steps that
drop statements: blocks with nothing but comments, branches that are not taken, and dead code. None
of these drops a requirement that was reported, since a requirement is no comment and asserts
something; and none is made false later, since dead code is only taken away.

This needs that `require` keeps its meaning. Folding goes by the name that is called, so it must not
be replaced by a truth value, and no other expression that is called may become it.
-/

namespace ValidUsage

namespace Expr

variable {b : Build} {names : FoldedNames} {e : Expr}

/-! ## What a folded expression is at its head -/

/-- Where the head of what folding makes of an expression comes from, negations aside. -/
inductive HeadOf (b : Build) (names : FoldedNames) (e : Expr) : Expr → Prop where
  /-- It is a truth value. -/
  | literal (p : Pos) (v : Bool) : HeadOf b names e (.ofBool p v)
  /-- It is that of a part. -/
  | part (q : Role × Expr) (h : q ∈ e.parts) : HeadOf b names e (q.2.fold b names).unnegated
  /-- It is the name that the expression is. -/
  | name (p : Pos) (id : String) (h : e = .name p id) : HeadOf b names e (.name p id)
  /-- It is the call that the expression is. -/
  | call (p : Pos) (func : Expr) (args : List Expr) (h : e = .call p func args) :
    HeadOf b names e (.call p (func.fold b names) (foldList b names args))
  /-- It is the condition on an extension. -/
  | asked (x : Expr) (hn : x.name? = none)
    (hc : x.callName? = some Predicate.isExtEnabled.name) : HeadOf b names e x
  /-- It is neither a name nor a call by name. -/
  | other (x : Expr) (hn : x.name? = none) (hc : x.callName? = none) : HeadOf b names e x

private theorem headOf_foldAlias (p : Pos) (ext : String) (args : List Expr) :
    HeadOf b names e (foldAlias b names p ext args).unnegated := by
  unfold foldAlias
  split
  · rcases foldName_cases names p Predicate.isExtEnabled.name with ⟨v, hv⟩ | hv
    · rw [hv]
      exact .other _ rfl rfl
    · rw [hv]
      exact .asked _ rfl rfl
  · exact .literal p false

/-- What folding makes of an expression has a head that comes from it. -/
theorem headOf_fold (b : Build) (names : FoldedNames) (e : Expr) :
    HeadOf b names e (e.fold b names).unnegated := by
  cases e with
  | name p id =>
    rw [fold]
    rcases foldName_cases names p id with ⟨v, hv⟩ | hv
    · rw [hv]
      exact .literal p v
    · rw [hv]
      exact .name p id rfl
  | boolOp p op values =>
    rw [fold]
    rcases foldBoolOp_cases p op (foldList b names values) with ⟨v, hv⟩ | hv | ⟨live, -, -, hv⟩
    · rw [hv]
      exact .literal p v
    · rw [foldList_eq_map] at hv
      obtain ⟨x, hx, he⟩ := List.mem_map.1 hv
      rw [foldList_eq_map, ← he]
      exact .part (.condition, x) (List.mem_map_of_mem hx)
    · rw [hv]
      exact .other _ rfl rfl
  | unary p op operand =>
    rw [fold]
    split
    · rcases unnegated_foldNot p (operand.fold b names) with ⟨v, hv⟩ | hv
      · rw [hv]
        exact .literal p v
      · rw [hv]
        exact .part (.operand, operand) (List.mem_singleton_self _)
    · rename_i hop
      rw [unnegated_of_isNegation_eq_false (by cases op <;> simp_all [isNegation])]
      exact .other _ rfl rfl
  | compare p left ops comparators =>
    rw [fold]
    split
    · exact .literal p _
    · rcases foldCompare_eq p (fold b names left) ops (foldList b names comparators) with
        ⟨-, v, hv⟩ | ⟨-, hv⟩
      · rw [hv]
        exact .literal p v
      · rw [hv]
        exact .other _ rfl rfl
  | call p func args =>
    rw [fold]
    split
    · exact headOf_foldAlias p _ args
    · split
      · exact .literal p _
      · exact .call p func args rfl
  | ifExp p test body orelse =>
    rw [fold]
    split
    · exact .part (.branch, body) (by simp [parts])
    · exact .part (.branch, orelse) (by simp [parts])
    · exact .other _ rfl rfl
  | _ => exact .other _ rfl rfl

/-- A name that is left of an expression was a part of it. -/
theorem name?_unnegated_fold {e : Expr} {id : String}
    (h : (e.fold b names).unnegated.name? = some id) : ∃ x ∈ e.walk, x.name? = some id := by
  have hhead := headOf_fold b names e
  generalize hy : (e.fold b names).unnegated = y at hhead h
  cases hhead with
  | part q hq =>
    have := sizeOf_lt_of_mem_parts hq
    obtain ⟨x, hx, hname⟩ := name?_unnegated_fold h
    exact ⟨x, walk_subset_of_mem_parts hq hx, hname⟩
  | name p id' he => exact ⟨e, self_mem_walk e, he ▸ h⟩
  | asked _ hn => exact absurd (hn.symm.trans h) nofun
  | other _ hn => exact absurd (hn.symm.trans h) nofun
  | _ => exact absurd h nofun
termination_by sizeOf e

private theorem ne_statement_of_mem_parts {q : Role × Expr} (h : q ∈ e.parts) :
    q.1 ≠ .statement := by
  have comparison (ops : List CmpOp) : Role.ofComparison ops ≠ .statement := by
    unfold Role.ofComparison
    split <;> decide
  cases e with
  | call p func args => cases func <;> grind [parts]
  | _ => grind [parts]

end Expr

/-- Whether `require` is called as a statement if it is called, and does not stand in what is
called, unless that is a name or a member. -/
structure Role.KeepsRequire (role : Role) (e : Expr) : Prop where
  /-- `require` is called as a statement. -/
  call : e.callName? = some Predicate.require.name → role = .statement
  /-- What is called has no `require` in it. -/
  callee : role = .callee → ∀ x ∈ e.walk, x.name? ≠ some Predicate.require.name

namespace Expr

variable {b : Build} {names : FoldedNames}

private theorem unnegated_of_name? {e : Expr} {id : String} (h : e.name? = some id) :
    e.unnegated = e := by
  cases e with
  | name => rfl
  | _ => exact absurd h nofun

private theorem unnegated_of_callName? {e : Expr} {id : String} (h : e.callName? = some id) :
    e.unnegated = e := by
  cases e with
  | call => rfl
  | _ => exact absurd h nofun

/-- Folding makes no requirement of anything else. -/
theorem ne_require_unnegated_fold {e : Expr} {role : Role}
    (hself : e.callName? ≠ some Predicate.require.name)
    (hu : ∀ u ∈ e.uses role, u.1.KeepsRequire u.2) :
    (e.fold b names).unnegated.callName? ≠ some Predicate.require.name := by
  have part {q : Role × Expr} (hq : q ∈ e.parts) : ∀ u ∈ q.2.uses q.1, u.1.KeepsRequire u.2 := by
    obtain ⟨texts, -, heq⟩ := uses_eq role e
    intro u hmem
    refine hu u (heq ▸ List.mem_cons_of_mem _ (List.mem_append_right _ ?_))
    exact List.mem_flatMap.2 ⟨q, hq, hmem⟩
  intro h
  have hhead := headOf_fold b names e
  generalize hy : (e.fold b names).unnegated = y at hhead h
  cases hhead with
  | part q hq =>
    have := sizeOf_lt_of_mem_parts hq
    have hne : q.2.callName? ≠ some Predicate.require.name := fun hcall =>
      ne_statement_of_mem_parts hq ((part hq _ (self_mem_uses q.1 q.2)).call hcall)
    exact ne_require_unnegated_fold hne (part hq) h
  | call p func args he =>
    subst he
    -- folding finds no name in what is called that was not there before
    have computed (hfunc : (Role.callee, func) ∈ (Expr.call p func args).parts)
        (hname : (func.fold b names).name? = some Predicate.require.name) : False := by
      have hcallee := (part hfunc _ (self_mem_uses _ func)).callee rfl
      obtain ⟨x, hx, hrequire⟩ := name?_unnegated_fold ((unnegated_of_name? hname).symm ▸ hname)
      exact hcallee x hx hrequire
    cases func with
    | name q id =>
      rcases foldName_cases names q id with ⟨v, hv⟩ | hv
      · rw [fold, hv] at h
        exact absurd h nofun
      · rw [fold, hv] at h
        exact hself h
    | member q value attr => exact absurd h nofun
    | _ => exact computed (List.mem_cons_self ..) h
  | asked _ _ hc => exact absurd (Option.some.inj (hc.symm.trans h)) (by decide)
  | other _ _ hc => exact absurd (hc.symm.trans h) nofun
  | _ => exact absurd h nofun
termination_by sizeOf e

/-- A requirement stays one, if its name is not replaced. -/
theorem fold_requirement (hnames : names.get? Predicate.require.name = none) (p q : Pos)
    (args : List Expr) :
    (call p (name q Predicate.require.name) args).fold b names =
      call p (name q Predicate.require.name) (foldList b names args) := by
  have hne : Predicate.require.name ≠ Predicate.isFeatureEnabled.name := by decide
  simp [fold, foldName, hnames, Build.aliasOfFeature?, Build.condition?, Build.callCondition?,
    Predicate.ofName?_name, name?, hne]

end Expr

namespace Stmt

/-- Whether a statement is a loop with a condition. -/
def isWhile : Stmt → Bool
  | whileDo .. => true
  | _ => false

/-- Where `require` is called, if the statement is a requirement of `False`. -/
def falseRequirement? : Stmt → Option Pos
  | expr _ value =>
    if value.callName? = some Predicate.require.name ∧ firstArgument? value = some false then
      some value.pos
    else none
  | _ => none

end Stmt

namespace Block

/-- Where `require` is called with `False`, in the order of the statements. -/
def falseRequirements (b : Block) : List Pos := b.statements.filterMap Stmt.falseRequirement?

/-- Whether `require` keeps its meaning in a statement, and folding sees every requirement. -/
structure KeepsRequire (b : Block) : Prop where
  /-- `require` is only called as a statement. -/
  calls : ∀ u ∈ b.uses, u.expr.callName? = some Predicate.require.name → u.role = .statement
  /-- It does not stand in what is called, unless that is a name or a member. -/
  callees : ∀ u ∈ b.uses, u.role = .callee → ∀ x ∈ u.expr.walk,
    x.name? ≠ some Predicate.require.name
  /-- It is not assigned. -/
  unassigned : Predicate.require.name ∉ Stmt.assignedBlock b
  /-- There is no loop with a condition. -/
  noWhile : b.statements.all (!·.isWhile) = true
  /-- No loop over elements has an `else`. -/
  elseFree : b.isElseFree = true

@[simp] theorem falseRequirements_nil : falseRequirements [] = [] := rfl

private theorem falseRequirements_append (b c : Block) :
    (b ++ c).falseRequirements = b.falseRequirements ++ c.falseRequirements := by
  simp [falseRequirements, statements_append]

/-- A requirement asserts something. -/
theorem falseRequirements_eq (b : Block) :
    b.falseRequirements = b.assertions.filterMap Stmt.falseRequirement? := by
  rw [falseRequirements, assertions, List.filterMap_filter]
  congr 1
  funext s
  cases hs : s.asserts with
  | true => rfl
  | false =>
    cases s with
    | expr p value =>
      cases hc : (Stmt.expr p value).comment? with
      | none => simp [Stmt.asserts, Stmt.isComment, hc] at hs
      | some text =>
        obtain ⟨p₁, p₂, p₃, rfl⟩ := Stmt.eq_call_of_comment? hc
        have hne : commentName ≠ Predicate.require.name := by decide
        simp [Stmt.falseRequirement?, Expr.callName?, Expr.name?, hne]
    | _ => rfl

private theorem falseRequirements_congr {b c : Block} (h : c.assertions = b.assertions) :
    c.falseRequirements = b.falseRequirements := by
  rw [falseRequirements_eq, falseRequirements_eq, h]

end Block

/-! ## What folding reports -/

/-- What folding reports are the false requirements that it leaves, in their order; and no loop has
an `else`. -/
structure Folded.Reports (x : Folded) : Prop where
  /-- The false requirements are reported. -/
  positions : x.falsified.map Stmt.reported = x.stmts.falseRequirements
  /-- No loop has an `else`. -/
  elseFree : x.stmts.isElseFree = true

namespace Folded

open Block Stmt

variable {x y : Folded}

/-- Nothing reports nothing. -/
theorem Reports.nothing : nothing.Reports := ⟨rfl, rfl⟩

/-- A statement without a false requirement needs no report. -/
theorem Reports.one {s : Stmt} (hs : falseRequirements [s] = []) (he : isElseFree [s] = true) :
    (one s).Reports :=
  ⟨hs.symm, he⟩

/-- Foldings one after the other report what they leave. -/
theorem Reports.append (hx : x.Reports) (hy : y.Reports) : (x.append y).Reports where
  positions := by
    simp only [Folded.append, List.map_append, hx.positions, hy.positions, falseRequirements_append]
  elseFree := by rw [Folded.append, isElseFree_append, hx.elseFree, hy.elseFree, Bool.and_self]

/-- A block of comments has no requirement, so nothing was reported in it. -/
theorem Reports.live (hx : x.Reports) : x.live.Reports := by
  unfold Folded.live
  split
  · next h =>
    refine ⟨?_, rfl⟩
    rw [hx.positions, falseRequirements_eq, assertions_of_comments h]
    rfl
  · exact hx

private theorem falseRequirements_ifElse (p : Pos) (test : Expr) (body orelse : Block) :
    falseRequirements [ifElse p test body orelse] =
      body.falseRequirements ++ orelse.falseRequirements := by
  simp only [falseRequirements_eq, assertions_ifElse, List.filterMap_append]

private theorem falseRequirements_forEach (p : Pos) (target iter : Expr) (body orelse : Block) :
    falseRequirements [forEach p target iter body orelse] =
      body.falseRequirements ++ orelse.falseRequirements := by
  simp only [falseRequirements_eq, assertions_forEach, List.filterMap_append]

private theorem falseRequirements_expr (p : Pos) (value : Expr) :
    falseRequirements [expr p value] = (expr p value).falseRequirement?.toList := by
  cases h : (expr p value).falseRequirement? <;>
    simp [falseRequirements, statements, nestedBlock, nested, h]

/-- A folded `if` reports what its blocks do. -/
theorem Reports.foldIf {p : Pos} {test : Expr} (hx : x.Reports) (hy : y.Reports) :
    (foldIf p test x y).Reports := by
  obtain ⟨hxp, hxe⟩ := hx
  obtain ⟨hyp, hye⟩ := hy
  unfold Stmt.foldIf
  by_cases hbody : x.stmts = []
  · by_cases horelse : y.stmts = []
    · constructor <;> simp_all
    · constructor <;> simp_all [falseRequirements_ifElse, isElseFree_ifElse]
  · constructor <;> simp_all [falseRequirements_ifElse, isElseFree_ifElse]

/-- What is not called `require` is no requirement. -/
theorem Reports.expr {p : Pos} {value : Expr}
    (h : value.callName? ≠ some Predicate.require.name) : (Folded.one (.expr p value)).Reports := by
  refine Reports.one ?_ rfl
  simp [falseRequirements_expr, falseRequirement?, h]

/-- A requirement is reported exactly if it becomes one of `False`. -/
theorem Reports.require {build : Build} {names : FoldedNames} {p : Pos} {value : Expr}
    (hnames : names.get? Predicate.require.name = none)
    (h : value.callName? = some Predicate.require.name) :
    (foldRequire (.expr p value) p (value.fold build names)).Reports := by
  cases value with
  | call q func args =>
    cases func with
    | name q' id =>
      obtain rfl : id = Predicate.require.name := Option.some.inj h
      rw [Expr.fold_requirement hnames]
      unfold foldRequire
      split
      · exact .nothing
      · next hfalse =>
        refine ⟨?_, rfl⟩
        simp [falseRequirements_expr, falseRequirement?, hfalse, Expr.callName?, Expr.name?,
          reported, Expr.pos]
      · next hnone =>
        refine .one ?_ rfl
        simp [falseRequirements_expr, falseRequirement?, hnone]
    | _ => cases h
  | _ => cases h

end Folded

namespace Stmt

open Block Folded

variable {build : Build}

private theorem get?_foldNames {names : FoldedNames} {name : String} {s : Stmt}
    (h : names.get? name = none)
    (hs : name ∉ s.assigned) : (foldNames build names s).get? name = none := by
  cases s with
  | assign p targets value =>
    rw [foldNames]
    split
    · next id v hbinding =>
      unfold constantBinding? at hbinding
      split at hbinding
      · simp only [Option.some.injEq, Prod.mk.injEq] at hbinding
        have hne : name ≠ id := by simpa [assigned, Expr.name?, hbinding.1] using hs
        rw [Table.get?_insert, if_neg hne, h]
      · cases hbinding
    · exact h
  | _ => exact h

/-- Whether statements are as folding needs them to see every requirement. -/
structure Plain (us : List Use) (assigned : List String) (b : Block) : Prop where
  /-- `require` keeps its meaning. -/
  keeps : ∀ u ∈ us, u.role.KeepsRequire u.expr
  /-- It is not assigned. -/
  unassigned : Predicate.require.name ∉ assigned
  /-- There is no loop with a condition. -/
  noWhile : b.statements.all (!·.isWhile) = true
  /-- No loop over elements has an `else`. -/
  elseFree : b.isElseFree = true

mutual

/-- Folding reports the false requirements that it leaves of a statement. -/
theorem reports_fold : ∀ {s : Stmt} {visible : Locals} {names : FoldedNames},
    names.get? Predicate.require.name = none → Plain (uses visible s) (assigned s) [s] →
      (fold build names s).Reports
  | assign p targets value, visible, names, hnames, h => by
    rw [fold]
    split
    · exact .nothing
    · exact .one rfl rfl
  | ifElse p test body orelse, visible, names, hnames, h => by
    obtain ⟨hkeeps, hassigned, hwhile, helse⟩ := h
    rw [uses, List.forall_mem_append, List.forall_mem_append] at hkeeps
    simp only [assigned, List.mem_append, not_or, statements, nestedBlock, nested, List.append_nil,
      List.all_cons, List.all_append, Bool.and_eq_true, isElseFree_ifElse] at hassigned hwhile helse
    have hbody := (reports_foldBlock hnames
      ⟨hkeeps.2.1, hassigned.1, hwhile.2.1, helse.1⟩).live
    have horelse := (reports_foldBlock hnames
      ⟨hkeeps.2.2, hassigned.2, hwhile.2.2, helse.2⟩).live
    rw [fold]
    split
    · exact hbody
    · exact horelse
    · exact hbody.foldIf horelse
  | forEach p target iter body orelse, visible, names, hnames, h => by
    obtain ⟨hkeeps, hassigned, hwhile, helse⟩ := h
    rw [uses, List.forall_mem_append, List.forall_mem_append] at hkeeps
    simp only [assigned, List.mem_append, not_or, statements, nestedBlock, nested, List.append_nil,
      List.all_cons, List.all_append, Bool.and_eq_true, isElseFree_forEach,
      List.isEmpty_iff] at hassigned hwhile helse
    obtain ⟨helse, rfl⟩ := helse
    obtain ⟨hpositions, hfree⟩ := (reports_foldBlock hnames
      ⟨hkeeps.2.1, hassigned.1, hwhile.2.1, helse⟩).live
    rw [fold]
    by_cases hnil : (foldBlock build names body).live.stmts = []
    · constructor <;> simp_all
    · constructor <;> simp_all [falseRequirements_forEach, isElseFree_forEach]
  | whileDo p test body orelse, visible, names, hnames, h => by
    have hwhile := h.noWhile
    simp [statements, nestedBlock, nested, isWhile] at hwhile
  | expr p value, visible, names, hnames, h => by
    rw [fold]
    split
    · next hcomment =>
      refine .one ?_ rfl
      rw [falseRequirements_eq, assertions_of_isComment hcomment]
      rfl
    · next hcomment =>
      split
      · next hcall => exact .require hnames hcall
      · next hcall =>
        refine .expr fun hrequire => ?_
        have hkeeps := h.keeps
        rw [uses, if_neg hcomment, usesAt, List.forall_mem_map] at hkeeps
        exact Expr.ne_require_unnegated_fold hcall hkeeps
          ((Expr.unnegated_of_callName? hrequire).symm ▸ hrequire)
  | update .., visible, names, hnames, h | pass _, visible, names, hnames, h
  | breakOut _, visible, names, hnames, h | nextRound _, visible, names, hnames, h => .one rfl rfl

/-- Folding reports the false requirements that it leaves of a block. -/
theorem reports_foldBlock : ∀ {b : Block} {visible : Locals} {names : FoldedNames},
    names.get? Predicate.require.name = none → Plain (usesBlock visible b) (assignedBlock b) b →
      (foldBlock build names b).Reports
  | [], _, _, _, _ => .nothing
  | s :: ss, visible, names, hnames, h => by
    obtain ⟨hkeeps, hassigned, hwhile, helse⟩ := h
    rw [usesBlock, List.forall_mem_append] at hkeeps
    rw [assignedBlock, List.mem_append, not_or] at hassigned
    rw [← List.singleton_append, statements_append, List.all_append, Bool.and_eq_true] at hwhile
    rw [← List.singleton_append, isElseFree_append, Bool.and_eq_true] at helse
    have hs := reports_fold hnames ⟨hkeeps.1, hassigned.1, hwhile.1, helse.1⟩
    have hrest : (foldNames build names s).get? Predicate.require.name = none :=
      get?_foldNames hnames hassigned.1
    have hss := reports_foldBlock hrest ⟨hkeeps.2, hassigned.2, hwhile.2, helse.2⟩
    rw [foldBlock]
    exact hs.append hss

end

end Stmt

namespace Block

open Stmt

variable {b : Block}

private theorem KeepsRequire.reports_fold (h : b.KeepsRequire) (build : Build) :
    (b.fold build).Reports := by
  have hplain : Plain (usesBlock [] b) (assignedBlock b) b :=
    ⟨fun u hu => ⟨h.calls u hu, h.callees u hu⟩, h.unassigned, h.noWhile, h.elseFree⟩
  exact (reports_foldBlock rfl hplain).live

/-- The warnings about a statement for a build are those of its requirements of `False`: there is
one for each that is left, in their order, at the place where `require` is called. So a statement
with a warning is left. -/
theorem warnings_strip (h : b.KeepsRequire) (build : Build) (origin : Origin) :
    ((b.strip build).warnings origin).map (·.location) =
      (((b.strip build).block.getD []).falseRequirements).map (fun p => some (origin.locate p)) ∧
    (∀ w ∈ (b.strip build).warnings origin, w.id = Code.requireFalse.id) ∧
    ((b.strip build).warnings origin ≠ [] → (b.strip build).block.isSome) := by
  obtain ⟨hpositions, hfree⟩ := h.reports_fold build
  have hleft : ((b.strip build).block.getD []).falseRequirements =
      (b.fold build).falsified.map reported := by
    rw [hpositions]
    exact falseRequirements_congr (keeps_withoutDeadCode hfree).assertions
  have hwarnings : (b.strip build).warnings origin =
      (b.fold build).falsified.map (Stripped.warning origin) := rfl
  refine ⟨?_, ?_, ?_⟩
  · rw [hleft, hwarnings, List.map_map, List.map_map]
    rfl
  · rw [hwarnings, List.forall_mem_map]
    exact fun s _ => rfl
  · intro hne
    cases hblock : (b.strip build).block with
    | some c => rfl
    | none =>
      rw [hblock] at hleft
      rw [hwarnings, List.map_eq_nil_iff.1 hleft.symm] at hne
      exact absurd rfl hne

/-- A condition that the first version decides. -/
private def isOfFirstVersion : Expr :=
  .call .none (.name .none "is_version") [.const .none (.int 1), .const .none (.int 0)]

/-- The requirement of a condition, at a place. -/
private def requireAt (p : Pos) (func condition : Expr) : Stmt := .expr p (.call p func [condition])

/-- A requirement that the first version must not be there, where something else is required. -/
private def notOfFirstVersion : Block :=
  [.ifElse ⟨1, 1⟩ (.name ⟨1, 4⟩ "regionCount")
    [requireAt ⟨2, 3⟩ (.name ⟨2, 3⟩ "require") (.unary ⟨2, 11⟩ .not isOfFirstVersion)] [],
   requireAt ⟨3, 1⟩ (.name ⟨3, 1⟩ "require") (.name ⟨3, 9⟩ "pRegions")]

/-- There is one warning about it, at the place of the requirement that is left. -/
theorem warnings_notOfFirstVersion :
    notOfFirstVersion.KeepsRequire ∧
    (((notOfFirstVersion.strip firstBuild).block.getD []).falseRequirements.map fun p =>
      some ((⟨"a.adoc", 7, 2⟩ : Origin).locate p)) = [some ⟨"a.adoc", 8, 5⟩] ∧
    (notOfFirstVersion.strip firstBuild).block.isSome := by
  have h : notOfFirstVersion.KeepsRequire :=
    ⟨by decide +kernel, by decide +kernel, by decide +kernel, rfl, rfl⟩
  obtain ⟨hlocations, -, hleft⟩ := warnings_strip h firstBuild ⟨"a.adoc", 7, 2⟩
  exact ⟨h, hlocations.symm.trans rfl, hleft nofun⟩

/-- A statement that binds `require` to a truth value. -/
private def boundRequire : Block :=
  [.assign ⟨1, 1⟩ [.name ⟨1, 1⟩ "require"] isOfFirstVersion,
   requireAt ⟨2, 1⟩ (.name ⟨2, 1⟩ "require") (.const ⟨2, 9⟩ (.bool false))]

/-- A statement in which a choice of `require` is called. -/
private def chosenRequire : Block :=
  [requireAt ⟨1, 1⟩ (.ifExp ⟨1, 2⟩ isOfFirstVersion (.name ⟨1, 2⟩ "require") (.name ⟨1, 34⟩ "x"))
    (.const ⟨1, 37⟩ (.bool false))]

/-- Where `require` is only called as a statement and there are neither loops with conditions nor
loops with an `else`, a warning can be about no requirement that is left, and a requirement of
`False` can be left without a warning. -/
theorem warnings_ne_falseRequirements :
    ((∀ u ∈ boundRequire.uses, u.expr.callName? = some Predicate.require.name →
        u.role = .statement) ∧
      boundRequire.statements.all (fun s => !s.isWhile && !s.hasLoopElse) = true ∧
      ((boundRequire.strip firstBuild).warnings ⟨"a.adoc", 1, 0⟩).map (·.location) =
        [some ⟨"a.adoc", 2, 1⟩] ∧
      ((boundRequire.strip firstBuild).block.getD []).falseRequirements = []) ∧
    (∀ u ∈ chosenRequire.uses, u.expr.callName? = some Predicate.require.name →
        u.role = .statement) ∧
      chosenRequire.statements.all (fun s => !s.isWhile && !s.hasLoopElse) = true ∧
      (chosenRequire.strip firstBuild).warnings ⟨"a.adoc", 1, 0⟩ = [] ∧
      ((chosenRequire.strip firstBuild).block.getD []).falseRequirements = [⟨1, 1⟩] := by
  have hbound : (boundRequire.strip firstBuild).block =
      some [requireAt ⟨2, 1⟩ (.const ⟨2, 1⟩ (.bool true)) (.const ⟨2, 9⟩ (.bool false))] :=
    withoutDeadCode_of_prune rfl
  have hchosen : (chosenRequire.strip firstBuild).block =
      some [requireAt ⟨1, 1⟩ (.name ⟨1, 2⟩ "require") (.const ⟨1, 37⟩ (.bool false))] :=
    withoutDeadCode_of_prune rfl
  refine ⟨⟨by decide +kernel, rfl, rfl, ?_⟩, by decide +kernel, rfl, rfl, ?_⟩
  · rw [hbound]
    rfl
  · rw [hchosen]
    rfl

end Block
end ValidUsage
