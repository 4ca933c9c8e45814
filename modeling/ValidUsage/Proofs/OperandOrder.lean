import Mathlib.Data.List.Forall2
import ValidUsage.Proofs.Writable
import ValidUsage.Verification.Basic

/-!
# The order of the operands of a comparison

Two statements are checked side by side that are the same but for positions and for the order of
the operands of some comparisons. The two runs give every expression the same type and find the same
mistakes, if in another order. What carries this through a turned comparison is that the relation of
types that go together is symmetric; it is no equivalence, since `NULL` goes with every pointer.

How issues are compared is a parameter: if no operand is turned, more of them is the same than the
mistakes.
-/

namespace ValidUsage

/-! ## Types that go together -/

namespace Registry

variable (r : Registry) (a b : Ty)

private theorem enumsMatch_comm : r.enumsMatch a b = r.enumsMatch b a := by
  rw [enumsMatch, enumsMatch, Bool.beq_comm (a := a.name), Bool.beq_comm (a := r.enumFamily a)]
  ac_rfl

private theorem handlesMatch_comm : handlesMatch a b = handlesMatch b a := by
  rw [handlesMatch, handlesMatch, Bool.beq_comm (a := a.name)]
  ac_rfl

private theorem basesMatch_comm (exact : Bool) :
    r.basesMatch exact a b = r.basesMatch exact b a := by
  rw [basesMatch, basesMatch, Bool.and_comm, enumsMatch_comm]
  split
  · rfl
  · by_cases h : a.cls = b.cls
    · rw [h, handlesMatch_comm, Bool.beq_comm (a := a.name)]
    · rw [if_pos h, if_pos (Ne.symm h)]

/-- Whether two types go together does not depend on their order. -/
theorem typesMatch_comm (exact : Bool) : r.typesMatch exact a b = r.typesMatch exact b a := by
  rw [typesMatch, typesMatch, basesMatch_comm, Bool.beq_comm, Bool.or_comm (a.cls == .void)]

end Registry

/-! ## Turned comparisons -/

/-- Whether two expressions are the same but for positions, and for the order of the operands of
comparisons by some operators. -/
inductive Expr.Turned (turns : CmpOp → Bool) : Expr → Expr → Prop where
  | boolOp {p p' : Pos} {op : BoolOp} {es es' : List Expr}
    (h : List.Forall₂ (Turned turns) es es') :
    Turned turns (.boolOp p op es) (.boolOp p' op es')
  | binary {p p' : Pos} {op : BinOp} {left left' right right' : Expr}
    (hl : Turned turns left left') (hr : Turned turns right right') :
    Turned turns (.binary p left op right) (.binary p' left' op right')
  | unary {p p' : Pos} {op : UnaryOp} {e e' : Expr} (h : Turned turns e e') :
    Turned turns (.unary p op e) (.unary p' op e')
  | compare {p p' : Pos} {ops : List CmpOp} {left left' : Expr} {es es' : List Expr}
    (hl : Turned turns left left') (h : List.Forall₂ (Turned turns) es es') :
    Turned turns (.compare p left ops es) (.compare p' left' ops es')
  /-- The operands of a comparison are swapped, and may be turned themselves. -/
  | turned {p p' : Pos} {op : CmpOp} {left left' right right' : Expr} (hop : turns op = true)
    (hl : Turned turns left left') (hr : Turned turns right right') :
    Turned turns (.compare p left [op] [right]) (.compare p' right' [op] [left'])
  | call {p p' : Pos} {func func' : Expr} {es es' : List Expr} (hf : Turned turns func func')
    (h : List.Forall₂ (Turned turns) es es') :
    Turned turns (.call p func es) (.call p' func' es')
  | member {p p' : Pos} {attr : String} {e e' : Expr} (h : Turned turns e e') :
    Turned turns (.member p e attr) (.member p' e' attr)
  | subscript {p p' : Pos} {e e' index index' : Expr} (h : Turned turns e e')
    (hi : Turned turns index index') :
    Turned turns (.subscript p e index) (.subscript p' e' index')
  | ifExp {p p' : Pos} {test test' body body' orelse orelse' : Expr} (ht : Turned turns test test')
    (hb : Turned turns body body') (ho : Turned turns orelse orelse') :
    Turned turns (.ifExp p test body orelse) (.ifExp p' test' body' orelse')
  | name {p p' : Pos} {id : String} : Turned turns (.name p id) (.name p' id)
  | const {p p' : Pos} {value : Constant} : Turned turns (.const p value) (.const p' value)
  | tuple {p p' : Pos} {es es' : List Expr} (h : List.Forall₂ (Turned turns) es es') :
    Turned turns (.tuple p es) (.tuple p' es')
  | list {p p' : Pos} {es es' : List Expr} (h : List.Forall₂ (Turned turns) es es') :
    Turned turns (.list p es) (.list p' es')
  | slice {p p' : Pos} {lower lower' upper upper' step step' : Option Expr}
    (hl : Option.Rel (Turned turns) lower lower') (hu : Option.Rel (Turned turns) upper upper')
    (hs : Option.Rel (Turned turns) step step') :
    Turned turns (.slice p lower upper step) (.slice p' lower' upper' step')

/-- Whether two statements are the same but for positions, and for the order of the operands of
comparisons by some operators. -/
inductive Stmt.Turned (turns : CmpOp → Bool) : Stmt → Stmt → Prop where
  | assign {p p' : Pos} {targets targets' : List Expr} {value value' : Expr}
    (ht : List.Forall₂ (Expr.Turned turns) targets targets') (hv : value.Turned turns value') :
    Turned turns (.assign p targets value) (.assign p' targets' value')
  | update {p p' : Pos} {op : BinOp} {target target' value value' : Expr}
    (ht : target.Turned turns target') (hv : value.Turned turns value') :
    Turned turns (.update p target op value) (.update p' target' op value')
  | ifElse {p p' : Pos} {test test' : Expr} {body body' orelse orelse' : Block}
    (ht : test.Turned turns test') (hb : List.Forall₂ (Turned turns) body body')
    (ho : List.Forall₂ (Turned turns) orelse orelse') :
    Turned turns (.ifElse p test body orelse) (.ifElse p' test' body' orelse')
  | forEach {p p' : Pos} {target target' iter iter' : Expr} {body body' orelse orelse' : Block}
    (ht : target.Turned turns target') (hi : iter.Turned turns iter')
    (hb : List.Forall₂ (Turned turns) body body')
    (ho : List.Forall₂ (Turned turns) orelse orelse') :
    Turned turns (.forEach p target iter body orelse) (.forEach p' target' iter' body' orelse')
  | whileDo {p p' : Pos} {test test' : Expr} {body body' orelse orelse' : Block}
    (ht : test.Turned turns test') (hb : List.Forall₂ (Turned turns) body body')
    (ho : List.Forall₂ (Turned turns) orelse orelse') :
    Turned turns (.whileDo p test body orelse) (.whileDo p' test' body' orelse')
  | expr {p p' : Pos} {value value' : Expr} (h : value.Turned turns value') :
    Turned turns (.expr p value) (.expr p' value')
  | pass {p p' : Pos} : Turned turns (.pass p) (.pass p')
  | breakOut {p p' : Pos} : Turned turns (.breakOut p) (.breakOut p')
  | nextRound {p p' : Pos} : Turned turns (.nextRound p) (.nextRound p')

/-- Whether two blocks are the same but for positions, and for the order of the operands of
comparisons by some operators. -/
def Block.Turned (turns : CmpOp → Bool) (b b' : Block) : Prop :=
  List.Forall₂ (Stmt.Turned turns) b b'

namespace Expr.Turned

variable {turns : CmpOp → Bool} {e e' : Expr} {es es' : List Expr}

private theorem name?_eq (h : e.Turned turns e') : e.name? = e'.name? := by
  cases h <;> rfl

private theorem head?_name?_eq (h : List.Forall₂ (Turned turns) es es') :
    es.head?.bind Expr.name? = es'.head?.bind Expr.name? := by
  cases h with
  | nil => rfl
  | cons he _ => exact he.name?_eq

private theorem refusedIndex?_eq (h : e.Turned turns e') :
    Verification.refusedIndex? e = Verification.refusedIndex? e' := by
  cases h <;> rfl

private theorem isDisplay_eq (h : e.Turned turns e') :
    Verification.isDisplay e = Verification.isDisplay e' := by
  cases h <;> rfl

end Expr.Turned

private theorem Block.Turned.isEmpty_eq {turns : CmpOp → Bool} {b b' : Block}
    (h : b.Turned turns b') :
    b.isEmpty = b'.isEmpty := by
  cases h <;> rfl

/-- A comment holds no comparison. -/
theorem Stmt.Turned.isComment_eq {turns : CmpOp → Bool} {x x' : Stmt} (h : x.Turned turns x') :
    x.isComment = x'.isComment := by
  cases h with
  | expr h =>
    cases h with
    | call hf hes =>
      cases hf with
      | name =>
        cases hes with
        | nil => rfl
        | cons he hrest =>
          cases he with
          | @const _ _ value => cases hrest <;> cases value <;> rfl
          | _ => cases hrest <;> rfl
      | _ => rfl
    | _ => rfl
  | _ => rfl

/-! ## Runs that find the same -/

/-- Whether two checks give the same value and equally many requirements, and find issues that are
the same by a comparison. -/
structure Checked.Alike {α : Type} (same : List Issue → List Issue → Prop) (x y : Checked α) :
    Prop where
  /-- The value is the same. -/
  value : x.value = y.value
  /-- The issues are the same. -/
  issues : same x.issues y.issues
  /-- There are equally many requirements. -/
  requires : x.requires = y.requires

/-- Whether a comparison of issues is a preorder on lists that are found one after the other, and
makes no difference between expressions up to turned comparisons. It looks only at the mistakes, in
any order, if any comparison can be turned, and that must be one for equality. -/
structure Issue.Compares (turns : CmpOp → Bool) (same : List Issue → List Issue → Prop) :
    Prop where
  /-- Every list is the same as itself. -/
  refl : ∀ a, same a a
  /-- What is the same as the same is the same. -/
  trans : ∀ {a b c}, same a b → same b c → same a c
  /-- Lists are the same part by part. -/
  append : ∀ {a b c d}, same a b → same c d → same (a ++ c) (b ++ d)
  /-- A mistake of an expression is one of a turned expression. -/
  expr : ∀ {e e'} (m : Mistake) (details : List (String × String)), e.Turned turns e' →
    same [.ofExpr m e details] [.ofExpr m e' details]
  /-- A mistake of two expressions is one of turned expressions. -/
  pair : ∀ {a a' b b'} (m : Mistake) (t u : Ty), a.Turned turns a' → b.Turned turns b' →
    same [.ofPair m a b t u] [.ofPair m a' b' t u]
  /-- A mistake of a statement is one of a turned statement. -/
  stmt : ∀ {x x'} (m : Mistake), x.Turned turns x' → same [.ofStmt m x] [.ofStmt m x']
  /-- Only comparisons for equality are turned. -/
  isEquality : ∀ {op}, turns op = true → op.isEquality = true
  /-- Where a comparison is turned, the order of the issues does not count. -/
  perm : ∀ {op a b}, turns op = true →
    (a.map Issue.mistake).Perm (b.map Issue.mistake) → same a b

namespace Verification

open Checked
open ValidUsage.Expr (Turned)

variable {turns : CmpOp → Bool} {same : List Issue → List Issue → Prop} {α β : Type}
  (hc : Issue.Compares turns same)

include hc

private theorem alike_refl (x : Checked α) : x.Alike same x := ⟨rfl, hc.refl _, rfl⟩

private theorem alike_bind {x y : Checked α} {f g : α → Checked β} (h : x.Alike same y)
    (hf : ∀ a, (f a).Alike same (g a)) : (x >>= f).Alike same (y >>= g) := by
  have hv := hf x.value
  refine ⟨?_, ?_, ?_⟩
  · rw [value_bind, value_bind, ← h.value, hv.value]
  · rw [issues_bind, issues_bind, ← h.value]
    exact hc.append h.issues hv.issues
  · rw [requires_bind, requires_bind, ← h.value, h.requires, hv.requires]

omit hc in
private theorem alike_typed {e e' : Expr} {x y : Checked Ty} (h : x.Alike same y) :
    (typed e x).Alike same (typed e' y) := ⟨h.value, h.issues, h.requires⟩

omit hc in
private theorem alike_report {i j : Issue} (h : same [i] [j]) : (report i).Alike same (report j) :=
  ⟨rfl, h, rfl⟩

private theorem alike_reportIf (c : Bool) {i j : Issue} (h : same [i] [j]) :
    (reportIf c i).Alike same (reportIf c j) := by
  cases c with
  | true => exact alike_report h
  | false => exact alike_refl hc _

section Judgements

variable {s : Subject} {e e' : Expr} (h : e.Turned turns e')

include h

private theorem alike_mistake (m : Mistake) : (mistake m e).Alike same (mistake m e') :=
  alike_report (hc.expr m [] h)

private theorem alike_untyped (m : Mistake) : (untyped m e).Alike same (untyped m e') :=
  alike_bind hc (alike_mistake hc h m) fun _ => alike_refl hc _

private theorem alike_judgeCondition (context : String) (t : Ty) :
    (judgeCondition context e t).Alike same (judgeCondition context e' t) := by
  unfold judgeCondition
  split
  · exact alike_refl hc _
  · split
    · exact alike_mistake hc h _
    · exact alike_reportIf hc _ (hc.expr _ _ h)

private theorem alike_typeOfName (scope : Scope) (id : String) :
    (typeOfName s scope e id).Alike same (typeOfName s scope e' id) := by
  unfold typeOfName
  split
  · exact alike_untyped hc h _
  · split
    · exact alike_refl hc _
    · split
      · exact alike_refl hc _
      · exact alike_untyped hc h _

private theorem alike_typeOfUnary (op : UnaryOp) (t : Ty) :
    (typeOfUnary op e t).Alike same (typeOfUnary op e' t) := by
  unfold typeOfUnary
  split
  · exact alike_refl hc _
  · split
    · exact alike_bind hc (alike_mistake hc h _) fun _ => alike_refl hc _
    · split
      · exact alike_bind hc (alike_mistake hc h _) fun _ => alike_refl hc _
      · exact alike_refl hc _

private theorem alike_typeOfMember (attr : String) (t : Ty) :
    (typeOfMember s e attr t).Alike same (typeOfMember s e' attr t) := by
  unfold typeOfMember
  dsimp only
  split
  · exact alike_refl hc _
  · split
    · exact alike_untyped hc h _
    · split
      · exact alike_untyped hc h _
      · split
        · exact alike_refl hc _
        · exact alike_untyped hc h _

private theorem alike_judgeCount (sig : Signature) (count : Nat) :
    (judgeCount sig e count).Alike same (judgeCount sig e' count) :=
  alike_reportIf hc _ (hc.expr _ _ h)

private theorem alike_judgeArgument (name : String) (declared t : Ty) :
    (judgeArgument s name declared e t).Alike same (judgeArgument s name declared e' t) :=
  alike_reportIf hc _ (hc.expr _ _ h)

private theorem alike_judgeReceiver (m : Method) (t : Ty) :
    (judgeReceiver s m e t).Alike same (judgeReceiver s m e' t) := by
  unfold judgeReceiver
  split
  · exact alike_reportIf hc _ (hc.expr _ _ h)
  · exact alike_refl hc _

section Pairs

variable {o o' : Expr} (ho : o.Turned turns o')

include ho

private theorem alike_typeOfBinary (op : BinOp) (t u : Ty) :
    (typeOfBinary s e o op t u).Alike same (typeOfBinary s e' o' op t u) := by
  unfold typeOfBinary
  split
  · exact alike_refl hc _
  · split
    · exact alike_bind hc (alike_report (hc.pair _ _ _ h ho)) fun _ => alike_refl hc _
    · split
      · exact alike_bind hc (alike_reportIf hc _ (hc.pair _ _ _ h ho)) fun _ => alike_refl hc _
      · dsimp only
        by_cases hflags : (!isFlagsType t || !isFlagsType u) = true
        · rw [if_pos hflags, if_pos hflags]
          exact alike_bind hc (alike_report (hc.pair _ _ _ h ho)) fun _ => alike_refl hc _
        · rw [if_neg hflags, if_neg hflags]
          exact alike_bind hc (alike_reportIf hc _ (hc.pair _ _ _ h ho)) fun _ => alike_refl hc _

private theorem alike_typeOfChoice (t u : Ty) :
    (typeOfChoice s e o t u).Alike same (typeOfChoice s e' o' t u) := by
  unfold typeOfChoice
  split
  · exact alike_refl hc _
  · split
    · exact alike_refl hc _
    · exact alike_bind hc (alike_reportIf hc _ (hc.pair _ _ _ h ho)) fun _ => alike_refl hc _

private theorem alike_typeOfElement (t u : Ty) :
    (typeOfElement e o t u).Alike same (typeOfElement e' o' t u) := by
  unfold typeOfElement
  split
  · exact alike_refl hc _
  · split
    · exact alike_untyped hc h _
    · exact alike_bind hc (alike_reportIf hc _ (hc.expr _ _ ho)) fun _ => alike_refl hc _

private theorem alike_judgeComparison {c c' : Expr} (hcmp : c.Turned turns c') (op : CmpOp)
    (t u : Ty) :
    (judgeComparison s c e o op t u).Alike same (judgeComparison s c' e' o' op t u) := by
  unfold judgeComparison
  split
  · exact alike_mistake hc hcmp _
  · split
    · exact alike_refl hc _
    · split
      · exact alike_reportIf hc _ (hc.pair _ _ _ h ho)
      · exact alike_reportIf hc _ (hc.pair _ _ _ h ho)

end Pairs
end Judgements

private theorem alike_judgeComparisons {s : Subject} {c c' e e' : Expr} {es es' : List Expr}
    (hcmp : c.Turned turns c') (h : e.Turned turns e') (hes : List.Forall₂ (Turned turns) es es')
    (ops : List CmpOp) (t : Ty) (ts : List Ty) :
    (judgeComparisons s c e ops es t ts).Alike same (judgeComparisons s c' e' ops es' t ts) := by
  unfold judgeComparisons
  split
  · cases hes with
    | cons ho hrest =>
      cases hrest
      exact alike_judgeComparison hc h ho hcmp _ _ _
  · next hother =>
    split
    · cases hes with
      | cons ho hrest =>
        cases hrest
        exact absurd rfl (hother _ _ _ rfl rfl)
    · exact alike_mistake hc hcmp _

private theorem alike_judgeLoopVariable {es es' : List Expr}
    (hes : List.Forall₂ (Turned turns) es es')
    (scope : Scope) :
    (judgeLoopVariable scope es).Alike same (judgeLoopVariable scope es') := by
  cases hes with
  | nil => exact alike_refl hc _
  | cons h =>
    rw [judgeLoopVariable, judgeLoopVariable, h.name?_eq]
    exact alike_reportIf hc _ (hc.expr _ _ h)

private theorem alike_judgeBit {s : Subject} {e e' : Expr} {es es' : List Expr}
    (h : e.Turned turns e')
    (hes : List.Forall₂ (Turned turns) es es') (m : Method) (t : Ty) (ts : List Ty) :
    (judgeBit s m e es t ts).Alike same (judgeBit s m e' es' t ts) := by
  unfold judgeBit
  split
  · cases hes with
    | cons ho hrest =>
      cases hrest
      exact alike_reportIf hc _ (hc.pair _ _ _ h ho)
  · next hother =>
    split
    · cases hes with
      | cons ho hrest =>
        cases hrest
        exact absurd rfl (hother _ _ rfl rfl)
    · exact alike_refl hc _

/-- A check that may be made before another one. -/
theorem alike_before {c : Prop} [Decidable c] {x : Checked Unit} {f g : Unit → Checked β}
    (hf : ∀ u, (f u).Alike same (g u)) :
    (have go := f; if c then x >>= go else go ()).Alike same
      (have go := g; if c then x >>= go else go ()) := by
  dsimp only
  split
  · exact alike_bind hc (alike_refl hc x) hf
  · exact hf ()

/-! ## Expressions -/

/-- Whether an expression is checked as every turned one. -/
def ChecksAlike (same : List Issue → List Issue → Prop) (turns : CmpOp → Bool) (s : Subject)
    (scope : Scope) (e : Expr) : Prop :=
  ∀ e', e.Turned turns e' → (checkExpr s scope e).Alike same (checkExpr s scope e')

section Parts

variable {s : Subject} {scope : Scope} {es es' : List Expr}
  (ih : ∀ e ∈ es, ChecksAlike same turns s scope e) (hes : List.Forall₂ (Turned turns) es es')

include ih hes

private theorem alike_checkAll : (checkAll s scope es).Alike same (checkAll s scope es') := by
  induction hes with
  | nil => exact alike_refl hc _
  | cons h _ ihs =>
    rw [checkAll, checkAll]
    refine alike_bind hc (ih _ List.mem_cons_self _ h) fun t => ?_
    refine alike_bind hc (ihs fun e he => ih e (List.mem_cons_of_mem _ he)) fun ts => ?_
    exact alike_refl hc _

private theorem alike_checkConditions (context : String) :
    (checkConditions s scope context es).Alike same (checkConditions s scope context es') := by
  induction hes with
  | nil => exact alike_refl hc _
  | cons h _ ihs =>
    rw [checkConditions, checkConditions]
    refine alike_bind hc (ih _ List.mem_cons_self _ h) fun t => ?_
    refine alike_bind hc (alike_judgeCondition hc h context t) fun _ => ?_
    exact ihs fun e he => ih e (List.mem_cons_of_mem _ he)

private theorem alike_checkArguments (name : String) (ds : List Ty) :
    (checkArguments s scope name ds es).Alike same (checkArguments s scope name ds es') := by
  induction hes generalizing ds with
  | nil => cases ds <;> exact alike_refl hc _
  | cons h _ ihs =>
    cases ds with
    | nil => exact alike_refl hc _
    | cons d ds =>
      rw [checkArguments, checkArguments]
      refine alike_bind hc (ih _ List.mem_cons_self _ h) fun t => ?_
      refine alike_bind hc (alike_judgeArgument hc h name d t) fun _ => ?_
      refine alike_bind hc (ihs (fun e he => ih e (List.mem_cons_of_mem _ he)) ds) fun ts => ?_
      exact alike_refl hc _

/-- The call of a predicate by its name. -/
theorem alike_checkCall {p p' q q' : Pos} {id : String} :
    (checkExpr s scope (.call p (.name q id) es)).Alike same
      (checkExpr s scope (.call p' (.name q' id) es')) := by
  have hcall : (Expr.call p (.name q id) es).Turned turns (.call p' (.name q' id) es') :=
    .call .name hes
  have hlen : es'.length = es.length := hes.length_eq.symm
  have htype (pred : Predicate) : typeOfCall pred es = typeOfCall pred es' := by
    unfold typeOfCall
    rw [Expr.Turned.head?_name?_eq hes]
  rw [checkExpr, checkExpr]
  refine alike_typed ?_
  split
  · refine alike_bind hc (alike_checkAll hc ih hes) fun _ => ?_
    exact alike_untyped hc hcall _
  · next pred _ =>
    refine alike_before hc fun _ => ?_
    rw [hlen, htype]
    refine alike_bind hc (alike_judgeCount hc hcall _ _) fun _ => ?_
    split
    · exact alike_bind hc (alike_checkAll hc ih hes) fun _ => alike_refl hc _
    · split
      · exact alike_bind hc (alike_judgeLoopVariable hc hes scope) fun _ => alike_refl hc _
      · split
        · exact alike_refl hc _
        · exact alike_bind hc (alike_checkArguments hc ih hes _ _) fun _ => alike_refl hc _

/-- The call of a predicate on a receiver. -/
theorem alike_checkMethod {p p' q q' : Pos} {receiver receiver' : Expr} {attr : String}
    (hr : receiver.Turned turns receiver') (ihr : ChecksAlike same turns s scope receiver) :
    (checkExpr s scope (.call p (.member q receiver attr) es)).Alike same
      (checkExpr s scope (.call p' (.member q' receiver' attr) es')) := by
  have hcall : (Expr.call p (.member q receiver attr) es).Turned turns
      (.call p' (.member q' receiver' attr) es') := .call (.member hr) hes
  have hlen : es'.length = es.length := hes.length_eq.symm
  have htype (m : Method) (t : Ty) : typeOfMethod m es t = typeOfMethod m es' t := by
    unfold typeOfMethod
    rw [Expr.Turned.head?_name?_eq hes]
  rw [checkExpr, checkExpr]
  refine alike_typed ?_
  split
  · refine alike_bind hc (ihr _ hr) fun _ => ?_
    refine alike_bind hc (alike_checkAll hc ih hes) fun _ => ?_
    exact alike_untyped hc hcall _
  · rw [hlen]
    refine alike_bind hc (ihr _ hr) fun t => ?_
    refine alike_bind hc (alike_judgeReceiver hc hr _ _) fun _ => ?_
    refine alike_bind hc (alike_judgeCount hc hcall _ _) fun _ => ?_
    split
    · exact alike_bind hc (alike_checkAll hc ih hes) fun _ => alike_refl hc _
    · refine alike_bind hc (alike_checkArguments hc ih hes _ _) fun ts => ?_
      refine alike_bind hc (alike_judgeBit hc hr hes _ _ _) fun _ => ?_
      rw [htype]
      exact alike_refl hc _

end Parts

omit hc in
/-- Two values for equality are compared with the same outcome in either order. -/
theorem judgeComparison_comm {s : Subject} {op : CmpOp} (hop : op.isEquality = true)
    (e e' left left' right right' : Expr) (t u : Ty) :
    (judgeComparison s e left right op t u).requires =
        (judgeComparison s e' right' left' op u t).requires ∧
      (judgeComparison s e left right op t u).issues.map Issue.mistake =
        (judgeComparison s e' right' left' op u t).issues.map Issue.mistake := by
  have hrefused : op.isRefused = false := by
    cases op <;> first | rfl | cases hop
  simp only [judgeComparison, hrefused, hop, Bool.or_comm u.isUnknown,
    Registry.typesMatch_comm s.registry u, Bool.false_eq_true, if_false, if_true]
  split
  · exact ⟨rfl, rfl⟩
  · cases s.registry.typesMatch true t u <;> exact ⟨rfl, rfl⟩

/-- What is found of two operands for equality is found of them in the other order. -/
theorem alike_turned {s : Subject} {scope : Scope} {p p' : Pos} {op : CmpOp}
    {left left' right right' : Expr} (hop : turns op = true)
    (hl : (checkExpr s scope left).Alike same (checkExpr s scope left'))
    (hr : (checkExpr s scope right).Alike same (checkExpr s scope right')) :
    (checkExpr s scope (.compare p left [op] [right])).Alike same
      (checkExpr s scope (.compare p' right' [op] [left'])) := by
  obtain ⟨hlv, hli, hlr⟩ := hl
  obtain ⟨hrv, hri, hrr⟩ := hr
  obtain ⟨hjr, hji⟩ := judgeComparison_comm (s := s) (hc.isEquality hop)
    (.compare p left [op] [right]) (.compare p' right' [op] [left']) left left' right right'
    (checkExpr s scope left).value (checkExpr s scope right).value
  rw [checkExpr, checkExpr]
  refine alike_typed ⟨rfl, ?_, ?_⟩
  · simp only [checkAll, judgeComparisons, issues_bind, issues_pure, value_bind, value_pure,
      List.append_nil, ← hlv, ← hrv]
    refine hc.trans (hc.append hli (hc.append hri (hc.refl _))) (hc.perm hop ?_)
    simp only [List.map_append, hji, ← List.append_assoc]
    exact List.perm_append_comm.append_right _
  · simp only [checkAll, judgeComparisons, requires_bind, requires_pure, value_bind, value_pure,
      ← hlv, ← hrv, hlr, hrr, hjr]
    omega

/-- An expression and a turned one are checked alike. -/
theorem checksAlike (s : Subject) (scope : Scope) (e : Expr) :
    ChecksAlike same turns s scope e := by
  induction e using Expr.receiverInduction with
  | boolOp p op values ih =>
    intro e' h
    cases h with
    | boolOp hes =>
      rw [checkExpr, checkExpr]
      refine alike_typed (alike_bind hc ?_ fun _ => alike_refl hc _)
      exact alike_checkConditions hc ih hes _
  | binary p left op right ihl ihr =>
    intro e' h
    cases h with
    | binary hl hr =>
      rw [checkExpr, checkExpr]
      refine alike_typed (alike_bind hc (ihl _ hl) fun t => ?_)
      exact alike_bind hc (ihr _ hr) fun u => alike_typeOfBinary hc hl hr op t u
  | unary p op operand ih =>
    intro e' h
    cases h with
    | unary h =>
      rw [checkExpr, checkExpr]
      exact alike_typed (alike_bind hc (ih _ h) fun t => alike_typeOfUnary hc h op t)
  | compare p left ops comparators ihl ih =>
    intro e' h
    cases h with
    | compare hl hes =>
      rw [checkExpr, checkExpr]
      refine alike_typed (alike_bind hc (ihl _ hl) fun t => ?_)
      refine alike_bind hc (alike_checkAll hc ih hes) fun ts => ?_
      refine alike_bind hc ?_ fun _ => alike_refl hc _
      exact alike_judgeComparisons hc (.compare hl hes) hl hes ops t ts
    | turned hop hl hr =>
      exact alike_turned hc hop (ihl _ hl) (ih _ List.mem_cons_self _ hr)
  | call p func args ihf ihm ih =>
    intro e' h
    have hcall := h
    cases h with
    | call hf hes =>
      cases hf with
      | name => exact alike_checkCall hc ih hes
      | member hr => exact alike_checkMethod hc ih hes hr (ihm _ _ _ rfl)
      | _ =>
        rw [checkExpr, checkExpr]
        · refine alike_typed (alike_bind hc (alike_checkAll hc ih hes) fun _ => ?_)
          exact alike_untyped hc hcall _
        all_goals simp
  | member p value attr ih =>
    intro e' h
    cases h with
    | member h =>
      rw [checkExpr, checkExpr]
      refine alike_typed (alike_bind hc (ih _ h) fun t => ?_)
      exact alike_typeOfMember hc (.member h) attr t
  | subscript p value index ihv ihi =>
    intro e' h
    cases h with
    | subscript h hi =>
      rw [checkExpr, checkExpr, hi.refusedIndex?_eq]
      refine alike_typed ?_
      split
      · refine alike_bind hc (alike_mistake hc hi _) fun _ => ?_
        exact alike_bind hc (ihv _ h) fun _ => alike_refl hc _
      · refine alike_bind hc (ihv _ h) fun t => ?_
        exact alike_bind hc (ihi _ hi) fun u => alike_typeOfElement hc h hi t u
  | ifExp p test body orelse iht ihb iho =>
    intro e' h
    cases h with
    | ifExp ht hb ho =>
      rw [checkExpr, checkExpr]
      refine alike_typed (alike_bind hc (iht _ ht) fun t => ?_)
      refine alike_bind hc (alike_judgeCondition hc ht _ t) fun _ => ?_
      refine alike_bind hc (ihb _ hb) fun u => ?_
      exact alike_bind hc (iho _ ho) fun v => alike_typeOfChoice hc hb ho u v
  | name p id =>
    intro e' h
    cases h with
    | name =>
      rw [checkExpr, checkExpr]
      exact alike_typed (alike_typeOfName hc .name scope id)
  | const p value =>
    intro e' h
    cases h
    exact alike_typed (alike_refl hc _)
  | tuple p elts | list p elts | slice p lower upper step =>
    intro e' h
    have hrefused := h
    cases h
    rw [checkExpr, checkExpr]
    exact alike_typed (alike_untyped hc hrefused _)

/-! ## Statements -/

private theorem alike_checkTarget {s : Subject} {scope : Scope} {e e' : Expr}
    (h : e.Turned turns e') :
    (checkTarget s scope e).Alike same (checkTarget s scope e') := by
  unfold checkTarget
  rw [h.name?_eq]
  split
  · exact alike_bind hc (alike_mistake hc h _) fun _ => alike_refl hc _
  · split
    · exact alike_bind hc (alike_mistake hc h _) fun _ => alike_refl hc _
    · exact alike_refl hc _

private theorem alike_checkIterator {s : Subject} {scope : Scope} {e e' : Expr}
    (h : e.Turned turns e') :
    (checkIterator s scope e).Alike same (checkIterator s scope e') := by
  unfold checkIterator
  rw [h.isDisplay_eq]
  split
  · exact alike_untyped hc h _
  · refine alike_bind hc (checksAlike hc s scope e e' h) fun t => ?_
    split
    · exact alike_refl hc _
    · split
      · exact alike_untyped hc h _
      · exact alike_refl hc _

/-- Whether a statement is checked as every turned one. -/
def ChecksStmtAlike (same : List Issue → List Issue → Prop) (turns : CmpOp → Bool) (s : Subject)
    (x : Stmt) : Prop :=
  ∀ scope x', x.Turned turns x' → (checkStmt s scope x).Alike same (checkStmt s scope x')

private theorem alike_checkStmts {s : Subject} {b b' : Block}
    (ih : ∀ x ∈ b, ChecksStmtAlike same turns s x) (h : b.Turned turns b') (scope : Scope) :
    (checkStmts s scope b).Alike same (checkStmts s scope b') := by
  rw [Block.Turned] at h
  induction h generalizing scope with
  | nil => exact alike_refl hc _
  | cons h _ ihs =>
    rw [checkStmts, checkStmts]
    refine alike_bind hc (ih _ List.mem_cons_self scope _ h) fun scope => ?_
    exact ihs (fun x hx => ih x (List.mem_cons_of_mem _ hx)) scope

/-- A statement and a turned one are checked alike. -/
theorem checksStmtAlike (s : Subject) (x : Stmt) : ChecksStmtAlike same turns s x := by
  induction x using Stmt.partsInduction with
  | assign p targets value =>
    intro scope x' h
    have hstmt := h
    cases h with
    | assign ht hv =>
      rw [checkStmt, checkStmt]
      refine alike_bind hc (checksAlike hc s scope value _ hv) fun t => ?_
      split
      · cases ht with
        | cons ht hrest =>
          cases hrest
          exact alike_bind hc (alike_checkTarget hc ht) fun _ => alike_refl hc _
      · next hother =>
        split
        · cases ht with
          | cons ht hrest =>
            cases hrest
            exact absurd rfl (hother _)
        · exact alike_bind hc (alike_report (hc.stmt _ hstmt)) fun _ => alike_refl hc _
  | ifElse p test body orelse ihb iho =>
    intro scope x' h
    cases h with
    | ifElse ht hb ho =>
      rw [checkStmt, checkStmt]
      refine alike_bind hc (checksAlike hc s scope test _ ht) fun t => ?_
      refine alike_bind hc (alike_judgeCondition hc ht _ t) fun _ => ?_
      refine alike_bind hc (alike_checkStmts hc ihb hb scope) fun _ => ?_
      exact alike_bind hc (alike_checkStmts hc iho ho scope) fun _ => alike_refl hc _
  | forEach p target iter body orelse ihb iho =>
    intro scope x' h
    have hstmt := h
    cases h with
    | forEach ht hi hb ho =>
      rw [checkStmt, checkStmt, Block.Turned.isEmpty_eq ho]
      refine alike_bind hc (alike_reportIf hc _ (hc.stmt _ hstmt)) fun _ => ?_
      refine alike_bind hc (alike_checkTarget hc ht) fun name => ?_
      refine alike_bind hc (alike_checkIterator hc hi) fun t => ?_
      exact alike_bind hc (alike_checkStmts hc ihb hb _) fun _ => alike_refl hc _
  | expr p value =>
    intro scope x' h
    have hcomment := h.isComment_eq
    cases h with
    | expr h =>
      rw [checkStmt, checkStmt, hcomment]
      split
      · exact alike_refl hc _
      · exact alike_bind hc (checksAlike hc s scope value _ h) fun _ => alike_refl hc _
  | update p target op value =>
    intro scope x' h
    cases h with
    | update ht hv => exact alike_bind hc (alike_mistake hc ht _) fun _ => alike_refl hc _
  | pass p =>
    intro scope x' h
    cases h
    exact alike_refl hc _
  | whileDo p test body orelse | breakOut p | nextRound p =>
    intro scope x' h
    have hstmt := h
    cases h
    rw [checkStmt, checkStmt]
    exact alike_bind hc (alike_report (hc.stmt _ hstmt)) fun _ => alike_refl hc _

/-- Two statements that are the same but for turned comparisons require equally much, and what is
wrong with them is the same. -/
theorem alike_verify {b b' : Block} (h : b.Turned turns b') (s : Subject) :
    same (b.verify s).issues (b'.verify s).issues ∧
      (b.verify s).requires = (b'.verify s).requires := by
  have hfound := alike_checkStmts hc (fun x _ => checksStmtAlike hc s x) h []
  refine ⟨?_, hfound.requires⟩
  simp only [Block.verify, hfound.requires]
  exact hc.append hfound.issues (hc.refl _)

/-- How many issues have a code. -/
def count (v : Verification) (code : Code) : Nat :=
  v.issues.countP fun i => i.mistake.code == code

end Verification

/-- Whether two lists of issues are about the same mistakes, in any order. -/
def Issue.SameMistakes (a b : List Issue) : Prop :=
  (a.map Issue.mistake).Perm (b.map Issue.mistake)

/-- Turned comparisons for equality can only change the order of the mistakes. -/
theorem Issue.SameMistakes.compares : Issue.Compares CmpOp.isEquality Issue.SameMistakes where
  refl _ := .refl _
  trans h h' := h.trans h'
  append h h' := by
    rw [SameMistakes, List.map_append, List.map_append]
    exact h.append h'
  expr _ _ _ := .refl _
  pair _ _ _ _ _ := .refl _
  stmt _ _ := .refl _
  isEquality h := h
  perm _ h := h

namespace Block

/-- The order of the operands of `==` and `!=` does not count: a statement in which some of them are
swapped, at any depth, is accepted together with the statement, requires as much, and has as many
issues of every code. -/
theorem verify_turned {b b' : Block} (h : b.Turned CmpOp.isEquality b') (s : Subject) :
    (b.verify s).isOk = (b'.verify s).isOk ∧ (b.verify s).requires = (b'.verify s).requires ∧
      ∀ code, (b.verify s).count code = (b'.verify s).count code := by
  obtain ⟨hissues, hrequires⟩ := Verification.alike_verify Issue.SameMistakes.compares h s
  have hlen : (b.verify s).issues.length = (b'.verify s).issues.length := by
    simpa using hissues.length_eq
  refine ⟨?_, hrequires, fun code => ?_⟩
  · rw [Verification.isOk, Verification.isOk, Bool.eq_iff_iff, List.isEmpty_iff_length_eq_zero,
      List.isEmpty_iff_length_eq_zero, hlen]
  · have hcount := hissues.countP_eq fun m => m.code == code
    rw [List.countP_map, List.countP_map] at hcount
    exact hcount

/-- A command that is given numbers and how many there are. -/
private def drawCounted : Subject where
  registry := { entities := [{
    name := "vkCmdDrawCounted", category := .command,
    members := [⟨"count", "uint32_t", 0, none, none⟩,
      ⟨"pCounts", "uint32_t", 1, some "count", none⟩] }] }
  api := "vkCmdDrawCounted"

/-- Two names that are compared for equality. -/
private def equalNames (id id' : String) : Expr :=
  .compare .none (.name .none id) [.eq] [.name .none id']

/-- The requirement that two conditions differ. -/
private def requireDiffer (left right : Expr) : Block :=
  [.expr .none (.call .none (.name .none "require") [.compare .none left [.notEq] [right]])]

/-- A number that is compared with an array is refused in either order. -/
theorem verify_turned_differ :
    Turned CmpOp.isEquality
        (requireDiffer (equalNames "count" "pCounts") (equalNames "NULL" "pCounts"))
        (requireDiffer (equalNames "pCounts" "NULL") (equalNames "pCounts" "count")) ∧
      ((requireDiffer (equalNames "pCounts" "NULL") (equalNames "pCounts" "count")).verify
        drawCounted).count .typeMismatch = 1 := by
  have h : Turned CmpOp.isEquality
      (requireDiffer (equalNames "count" "pCounts") (equalNames "NULL" "pCounts"))
      (requireDiffer (equalNames "pCounts" "NULL") (equalNames "pCounts" "count")) := by
    refine .cons (.expr (.call .name (.cons (.turned rfl ?_ ?_) .nil))) .nil
    · exact .turned rfl .name .name
    · exact .turned rfl .name .name
  obtain ⟨-, -, hcount⟩ := verify_turned h drawCounted
  refine ⟨h, ?_⟩
  rw [← hcount]
  decide +kernel

end Block
end ValidUsage
