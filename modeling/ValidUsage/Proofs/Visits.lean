import ValidUsage.Proofs.Scope
import ValidUsage.Proofs.WellScoped

/-!
# What is visited, and where

Acceptance looks at every expression of a statement in a scope. Whatever holds of all bindings that
a statement makes of what is visited holds in all these scopes; so each expression that stands in an
accepted statement, and each that is visited, is accepted in such a scope.
-/

namespace ValidUsage

namespace Stmt

mutual

/-- Whether a statement is of a form that the language has, binds names, and what stands in it has a
property, by what it stands there for. -/
def Holds (P : Role → Expr → Prop) : Stmt → Prop
  | assign _ targets value => (∃ q id, targets = [.name q id]) ∧ P .assigned value
  | ifElse _ test body orelse => P .condition test ∧ HoldsBlock P body ∧ HoldsBlock P orelse
  | forEach _ target iter body orelse =>
    (∃ q id, target = .name q id) ∧ P .iterator iter ∧ HoldsBlock P body ∧ orelse = []
  | expr p value => (expr p value).isComment = true ∨ P .statement value
  | pass _ => True
  | update .. | whileDo .. | breakOut _ | nextRound _ => False

/-- Whether every statement of a block is so. -/
def HoldsBlock (P : Role → Expr → Prop) : Block → Prop
  | [] => True
  | s :: ss => Holds P s ∧ HoldsBlock P ss

end

variable {P Q : Role → Expr → Prop} {b : Block} {s : Stmt}

/-- A property holds in a block when it does in each statement. -/
theorem holdsBlock_iff : HoldsBlock P b ↔ ∀ s ∈ b, s.Holds P := by
  induction b with
  | nil => simp [HoldsBlock]
  | cons s ss ih => simp [HoldsBlock, ih]

/-- What holds of the expressions in a statement may use that they are among its parts. -/
theorem Holds.imp (hs : s.Holds P)
    (h : ∀ role e, P role e → e.walk ⊆ s.walk → Q role e) : s.Holds Q := by
  induction s using Stmt.partsInduction with
  | assign p targets value =>
    exact ⟨hs.1, h _ _ hs.2 (List.subset_append_right _ _)⟩
  | ifElse p test body orelse ihb iho =>
    obtain ⟨htest, hbody, horelse⟩ := hs
    refine ⟨h _ _ htest (by simp [walk]), holdsBlock_iff.2 fun x hx => ?_,
      holdsBlock_iff.2 fun x hx => ?_⟩
    · refine ihb x hx (holdsBlock_iff.1 hbody x hx) fun role e hp hw => h role e hp fun y hy => ?_
      simp [walk, mem_walkBlock.2 ⟨x, hx, hw hy⟩]
    · refine iho x hx (holdsBlock_iff.1 horelse x hx) fun role e hp hw => h role e hp fun y hy => ?_
      simp [walk, mem_walkBlock.2 ⟨x, hx, hw hy⟩]
  | forEach p target iter body orelse ihb iho =>
    obtain ⟨htarget, hiter, hbody, horelse⟩ := hs
    refine ⟨htarget, h _ _ hiter (by simp [walk]), holdsBlock_iff.2 fun x hx => ?_, horelse⟩
    refine ihb x hx (holdsBlock_iff.1 hbody x hx) fun role e hp hw => h role e hp fun y hy => ?_
    simp [walk, mem_walkBlock.2 ⟨x, hx, hw hy⟩]
  | expr p value => exact hs.imp_right fun hp => h _ _ hp (List.Subset.refl _)
  | pass => trivial
  | _ => exact hs.elim

/-- What follows from a property for the expressions of a block holds in the block. -/
theorem HoldsBlock.imp (hb : HoldsBlock P b)
    (h : ∀ role e, P role e → e.walk ⊆ walkBlock b → Q role e) : HoldsBlock Q b :=
  holdsBlock_iff.2 fun x hx => (holdsBlock_iff.1 hb x hx).imp fun role e hp hw =>
    h role e hp fun _ hy => mem_walkBlock.2 ⟨x, hx, hw hy⟩

/-- What holds of all parts of the expressions in a statement, of names and of comments holds of
every expression of the statement. -/
theorem Holds.forall_mem_walk {R : Expr → Prop} (hname : ∀ p id, R (.name p id))
    (hcomment : ∀ p value, (expr p value).isComment = true → ∀ x ∈ value.walk, R x)
    (hP : ∀ role e, P role e → ∀ x ∈ e.walk, R x) (hs : s.Holds P) : ∀ x ∈ s.walk, R x := by
  have block {b : Block} (ih : ∀ y ∈ b, y.Holds P → ∀ x ∈ y.walk, R x) (hb : HoldsBlock P b) :
      ∀ x ∈ walkBlock b, R x := by
    intro x hx
    obtain ⟨y, hy, hx⟩ := mem_walkBlock.1 hx
    exact ih y hy (holdsBlock_iff.1 hb y hy) x hx
  induction s using Stmt.partsInduction with
  | assign p targets value =>
    obtain ⟨⟨q, id, rfl⟩, hvalue⟩ := hs
    intro x hx
    rcases List.mem_append.1 hx with hx | hx
    · obtain rfl : x = .name q id := by simpa [Expr.walkList, Expr.walk] using hx
      exact hname q id
    · exact hP _ _ hvalue x hx
  | ifElse p test body orelse ihb iho =>
    obtain ⟨htest, hbody, horelse⟩ := hs
    intro x hx
    simp only [walk, List.mem_append] at hx
    rcases hx with hx | hx | hx
    · exact hP _ _ htest x hx
    · exact block ihb hbody x hx
    · exact block iho horelse x hx
  | forEach p target iter body orelse ihb iho =>
    obtain ⟨⟨q, id, rfl⟩, hiter, hbody, rfl⟩ := hs
    intro x hx
    simp only [walk, walkBlock, Expr.walk, List.mem_append, List.mem_singleton, List.not_mem_nil,
      or_false] at hx
    rcases hx with rfl | hx | hx
    · exact hname q id
    · exact hP _ _ hiter x hx
    · exact block ihb hbody x hx
  | expr p value =>
    rcases hs with hc | hvalue
    · exact hcomment p value hc
    · exact hP _ _ hvalue
  | pass => simp [walk]
  | _ => exact hs.elim

/-- What holds of all parts of what has a property holds of all expressions of the block. -/
theorem HoldsBlock.forall_mem_walk {R : Expr → Prop} (hname : ∀ p id, R (.name p id))
    (hcomment : ∀ p value, (expr p value).isComment = true → ∀ x ∈ value.walk, R x)
    (hP : ∀ role e, P role e → ∀ x ∈ e.walk, R x) (hb : HoldsBlock P b) :
    ∀ x ∈ walkBlock b, R x := by
  intro x hx
  obtain ⟨s, hs, hx⟩ := mem_walkBlock.1 hx
  exact (holdsBlock_iff.1 hb s hs).forall_mem_walk hname hcomment hP x hx

/-- What a statement is, the statements of its blocks are. -/
theorem Holds.forall_mem_nested (hs : s.Holds P) : ∀ x ∈ s.nested, x.Holds P := by
  have block {b : Block} (ih : ∀ y ∈ b, y.Holds P → ∀ x ∈ y.nested, x.Holds P)
      (hb : HoldsBlock P b) : ∀ x ∈ nestedBlock b, x.Holds P := by
    intro x hx
    obtain ⟨y, hy, hx⟩ := mem_nestedBlock.1 hx
    exact ih y hy (holdsBlock_iff.1 hb y hy) x hx
  induction s using Stmt.partsInduction with
  | ifElse p test body orelse ihb iho =>
    obtain ⟨htest, hbody, horelse⟩ := hs
    intro x hx
    simp only [nested, List.mem_cons, List.mem_append] at hx
    rcases hx with rfl | hx | hx
    · exact ⟨htest, hbody, horelse⟩
    · exact block ihb hbody x hx
    · exact block iho horelse x hx
  | forEach p target iter body orelse ihb iho =>
    obtain ⟨htarget, hiter, hbody, rfl⟩ := hs
    intro x hx
    simp only [nested, nestedBlock, List.append_nil, List.mem_cons] at hx
    rcases hx with rfl | hx
    · exact ⟨htarget, hiter, hbody, rfl⟩
    · exact block ihb hbody x hx
  | whileDo => exact hs.elim
  | _ =>
    intro x hx
    obtain rfl := List.mem_singleton.1 hx
    exact hs

/-- What holds in a block holds in all statements within it. -/
theorem HoldsBlock.forall_mem_nested (hb : HoldsBlock P b) :
    ∀ x ∈ nestedBlock b, x.Holds P := by
  intro x hx
  obtain ⟨s, hs, hx⟩ := mem_nestedBlock.1 hx
  exact (holdsBlock_iff.1 hb s hs).forall_mem_nested x hx

end Stmt

namespace Verification

variable {s : Subject} {scope : Scope} {e : Expr}

/-! ## What is visited -/

section Visited

variable {es : List Expr} {x : Expr × Ty}

private theorem mem_types_checkAll (h : x ∈ (checkAll s scope es).types) :
    ∃ e ∈ es, x ∈ (checkExpr s scope e).types := by
  induction es with
  | nil => simp [checkAll] at h
  | cons e es ih =>
    simp only [checkAll, Checked.types_bind, Checked.types_pure, List.append_nil,
      List.mem_append] at h
    rcases h with h | h
    · exact ⟨e, List.mem_cons_self, h⟩
    · obtain ⟨e', he', h⟩ := ih h
      exact ⟨e', List.mem_cons_of_mem _ he', h⟩

private theorem mem_types_checkConditions {context : String}
    (h : x ∈ (checkConditions s scope context es).types) :
    ∃ e ∈ es, x ∈ (checkExpr s scope e).types := by
  induction es with
  | nil => simp [checkConditions] at h
  | cons e es ih =>
    simp only [checkConditions, Checked.types_bind, (quiet_judgeCondition context).2,
      List.nil_append, List.mem_append] at h
    rcases h with h | h
    · exact ⟨e, List.mem_cons_self, h⟩
    · obtain ⟨e', he', h⟩ := ih h
      exact ⟨e', List.mem_cons_of_mem _ he', h⟩

private theorem mem_types_checkArguments {name : String} {ds : List Ty}
    (h : x ∈ (checkArguments s scope name ds es).types) :
    ∃ e ∈ es, x ∈ (checkExpr s scope e).types := by
  induction es generalizing ds with
  | nil => cases ds <;> simp [checkArguments] at h
  | cons e es ih =>
    cases ds with
    | nil => simp [checkArguments] at h
    | cons d ds =>
      simp only [checkArguments, Checked.types_bind, Checked.types_pure, List.append_nil,
        (quiet_judgeArgument name d).2, List.nil_append, List.mem_append] at h
      rcases h with h | h
      · exact ⟨e, List.mem_cons_self, h⟩
      · obtain ⟨e', he', h⟩ := ih h
        exact ⟨e', List.mem_cons_of_mem _ he', h⟩

/-- Besides itself an accepted expression visits what its parts visit. -/
theorem exists_typed (hc : (checkExpr s scope e).issues = []) :
    ∃ y, checkExpr s scope e = .typed e y ∧
      ∀ x ∈ y.types, ∃ q ∈ e.parts, x ∈ (checkExpr s scope q.2).types := by
  cases e with
  | boolOp p op values =>
    refine ⟨_, by rw [checkExpr], fun x hx => ?_⟩
    simp only [Checked.types_bind, Checked.types_pure, List.append_nil] at hx
    obtain ⟨e, he, hx⟩ := mem_types_checkConditions hx
    exact ⟨_, List.mem_map_of_mem he, hx⟩
  | binary p left op right =>
    refine ⟨_, by rw [checkExpr], fun x hx => ?_⟩
    simp only [Checked.types_bind, (quiet_typeOfBinary op).2, List.append_nil,
      List.mem_append] at hx
    rcases hx with hx | hx
    · exact ⟨(.operand, left), by simp [Expr.parts], hx⟩
    · exact ⟨(.operand, right), by simp [Expr.parts], hx⟩
  | unary p op operand =>
    refine ⟨_, by rw [checkExpr], fun x hx => ?_⟩
    simp only [Checked.types_bind, (quiet_typeOfUnary op).2, List.append_nil] at hx
    exact ⟨(.operand, operand), by simp [Expr.parts], hx⟩
  | compare p left ops comparators =>
    refine ⟨_, by rw [checkExpr], fun x hx => ?_⟩
    simp only [Checked.types_bind, Checked.types_pure, (quiet_judgeComparisons ops _).2,
      List.append_nil, List.mem_append] at hx
    rcases hx with hx | hx
    · exact ⟨_, List.mem_map_of_mem List.mem_cons_self, hx⟩
    · obtain ⟨e, he, hx⟩ := mem_types_checkAll hx
      exact ⟨_, List.mem_map_of_mem (List.mem_cons_of_mem _ he), hx⟩
  | call p func args =>
    cases func with
    | name q id =>
      obtain ⟨pred, hid, hlen, -⟩ := clean_call_name hc
      refine ⟨_, by rw [checkExpr], fun x hx => ?_⟩
      by_cases ha : pred = .arrayIndex
      · subst ha
        simp [hid, hlen] at hx
      by_cases ht : pred = .textMacro
      · subst ht
        simp [hid, hlen] at hx
      have hmacro : id ≠ Predicate.textMacro.name := by
        rintro rfl
        exact ht (Option.some.inj (hid.symm.trans (Predicate.ofName?_name .textMacro)))
      have hargs : x ∈ (checkArguments s scope pred.name pred.signature.args args).types := by
        simp only [hid, hlen, ha, ht, ne_eq, not_true_eq_false, if_false] at hx
        split at hx <;> simpa using hx
      obtain ⟨e, he, hx⟩ := mem_types_checkArguments hargs
      exact ⟨(.argument, e), by simpa [Expr.parts, hmacro] using he, hx⟩
    | member q receiver attr =>
      obtain ⟨m, hid, -, -, hlen, -⟩ := clean_call_member hc
      refine ⟨_, by rw [checkExpr], fun x hx => ?_⟩
      simp only [hid, hlen, ne_eq, not_true_eq_false, if_false, Checked.types_bind,
        (quiet_judgeCount _ _).2, (quiet_judgeReceiver m).2, (quiet_judgeBit m _).2,
        Checked.types_pure, List.append_nil, List.nil_append, List.mem_append] at hx
      rcases hx with hx | hx
      · exact ⟨(.receiver, receiver), by simp [Expr.parts], hx⟩
      · obtain ⟨e, he, hx⟩ := mem_types_checkArguments hx
        exact ⟨(.argument, e), by simpa [Expr.parts] using he, hx⟩
    | _ => simp [checkExpr] at hc
  | member p value attr =>
    refine ⟨_, by rw [checkExpr], fun x hx => ?_⟩
    simp only [Checked.types_bind, (quiet_typeOfMember attr).2, List.append_nil] at hx
    exact ⟨(.record, value), by simp [Expr.parts], hx⟩
  | subscript p value index =>
    cases hi : refusedIndex? index with
    | some m => simp [checkExpr, hi] at hc
    | none =>
      refine ⟨_, by rw [checkExpr], fun x hx => ?_⟩
      simp only [hi, Checked.types_bind, quiet_typeOfElement.2, List.append_nil,
        List.mem_append] at hx
      rcases hx with hx | hx
      · exact ⟨(.array, value), by simp [Expr.parts], hx⟩
      · exact ⟨(.index, index), by simp [Expr.parts], hx⟩
  | ifExp p test body orelse =>
    refine ⟨_, by rw [checkExpr], fun x hx => ?_⟩
    simp only [Checked.types_bind, (quiet_judgeCondition _).2, quiet_typeOfChoice.2,
      List.append_nil, List.nil_append, List.mem_append] at hx
    rcases hx with hx | hx | hx
    · exact ⟨(.condition, test), by simp [Expr.parts], hx⟩
    · exact ⟨(.branch, body), by simp [Expr.parts], hx⟩
    · exact ⟨(.branch, orelse), by simp [Expr.parts], hx⟩
  | name p id =>
    refine ⟨_, by rw [checkExpr], fun x hx => ?_⟩
    simp at hx
  | const p value =>
    refine ⟨_, rfl, fun x hx => ?_⟩
    simp at hx
  | tuple | list | slice => simp [checkExpr] at hc

/-- An accepted expression visits itself and what its parts visit. -/
theorem mem_types_cases (hc : (checkExpr s scope e).issues = [])
    (hx : x ∈ (checkExpr s scope e).types) :
    x = (e, (checkExpr s scope e).value) ∨
      ∃ q ∈ e.parts, x ∈ (checkExpr s scope q.2).types := by
  obtain ⟨y, he, hy⟩ := exists_typed hc
  rw [he, Checked.types_typed, List.mem_append, List.mem_singleton] at hx
  rcases hx with hx | rfl
  · exact .inr (hy x hx)
  · exact .inl (by rw [he]; rfl)

end Visited

/-! ## What is visited in a whole statement -/

section Visits

variable {T : List (Expr × Ty)} {N : String → Prop} {I : Binding → Prop}

/-- Whether an expression is visited with a type, in a scope whose bindings have a property. -/
def Visits (s : Subject) (T : List (Expr × Ty)) (I : Binding → Prop) (x : Expr × Ty) : Prop :=
  ∃ scope, (∀ b ∈ scope, I b) ∧ (checkExpr s scope x.1).issues = [] ∧
    (checkExpr s scope x.1).value = x.2 ∧ (checkExpr s scope x.1).types ⊆ T

/-- Whether a property of bindings holds of every one that binds one of some names to what is
visited. -/
structure Binds (s : Subject) (T : List (Expr × Ty)) (N : String → Prop) (I : Binding → Prop) :
    Prop where
  /-- What has the property is no name of a predicate. -/
  free : ∀ b, I b → isPredicateName b.name = false
  /-- A binding has it whose type is that of something visited, or of its elements. -/
  bind : ∀ b x, N b.name → isPredicateName b.name = false → Visits s T I x →
    b.type = x.2 ∨ b.type = x.2.indexed → I b

private theorem visits_expr {e : Expr} (hI : Binds s T N I) (hs : ∀ b ∈ scope, I b)
    (hc : (checkExpr s scope e).issues = []) (ht : (checkExpr s scope e).types ⊆ T) :
    ∀ x ∈ (checkExpr s scope e).types, Visits s T I x := by
  intro x hx
  rcases mem_types_cases hc hx with rfl | ⟨q, hq, hxq⟩
  · exact ⟨scope, hs, hc, rfl, ht⟩
  · have := Expr.sizeOf_lt_of_mem_parts hq
    have hw := acceptsWithin_parts (fun b hb => hI.free b (hs b hb)) hc ht q hq
    refine visits_expr hI hs hw.clean ?_ x hxq
    rcases hw.within with hnil | hsub
    · intro y hy
      rcases mem_types_cases hw.clean hy with rfl | ⟨q', hq', -⟩
      · rcases mem_types_cases hw.clean hxq with rfl | ⟨q', hq', -⟩
        · exact ht hx
        · simp [hnil] at hq'
      · simp [hnil] at hq'
    · exact hsub
termination_by sizeOf e

/-- A target that is accepted is a name, and the scope with it has the property of bindings if the
target is bound to the type of something visited. -/
theorem Binds.bindScope (hI : Binds s T N I) (hs : ∀ b ∈ scope, I b) {target : Expr}
    (hc : (checkTarget s scope target).issues = []) (hN : ∀ id ∈ target.name?, N id)
    {x : Expr × Ty} (hx : Visits s T I x) {t : Ty} (ht : t = x.2 ∨ t = x.2.indexed)
    (ofLoop : Bool) :
    (∃ q id, target = .name q id) ∧
      ∀ b ∈ Scope.bind? scope (checkTarget s scope target).value t ofLoop, I b := by
  have ha : Agrees scope _ := ⟨rfl, fun b hb => hI.free b (hs b hb)⟩
  have hfree := (ha.bind hc t ofLoop).2.free
  cases target with
  | name q id =>
    refine ⟨⟨q, id, rfl⟩, ?_⟩
    cases hm : bindingMistake? s scope id with
    | some m => simp [checkTarget, Expr.name?, hm] at hc
    | none =>
      simp only [checkTarget, Expr.name?, hm, Checked.value_pure, Scope.bind?] at hfree ⊢
      intro b hb
      rcases List.mem_cons.1 hb with rfl | hb
      · exact hI.bind _ x (hN id rfl) (hfree _ List.mem_cons_self) hx ht
      · exact hs b hb
  | _ => simp [checkTarget, Expr.name?] at hc

/-- Whether a statement visits in scopes with a property, and leaves such a scope. -/
def VisitsIn (s : Subject) (T : List (Expr × Ty)) (N : String → Prop) (I : Binding → Prop)
    (x : Stmt) : Prop :=
  ∀ scope, (∀ b ∈ scope, I b) → (∀ id ∈ x.bound, N id) → (checkStmt s scope x).issues = [] →
    (checkStmt s scope x).types ⊆ T →
      (∀ y ∈ (checkStmt s scope x).types, Visits s T I y) ∧
        x.Holds (fun _ e => ∃ t, Visits s T I (e, t)) ∧ ∀ b ∈ (checkStmt s scope x).value, I b

private theorem visits_block {b : Block} (h : ∀ x ∈ b, VisitsIn s T N I x) (hs : ∀ b ∈ scope, I b)
    (hN : ∀ id ∈ Stmt.boundBlock b, N id) (hc : (checkStmts s scope b).issues = [])
    (ht : (checkStmts s scope b).types ⊆ T) :
    (∀ y ∈ (checkStmts s scope b).types, Visits s T I y) ∧
      Stmt.HoldsBlock (fun _ e => ∃ t, Visits s T I (e, t)) b := by
  induction b generalizing scope with
  | nil => exact ⟨by simp [checkStmts], trivial⟩
  | cons x xs ih =>
    simp only [checkStmts, Checked.issues_bind, List.append_eq_nil_iff] at hc
    simp only [checkStmts, Checked.types_bind, List.append_subset] at ht
    simp only [Stmt.boundBlock, List.mem_append] at hN
    obtain ⟨hx, hstands, hafter⟩ :=
      h x List.mem_cons_self scope hs (fun id hid => hN id (.inl hid)) hc.1 ht.1
    obtain ⟨hrest, hstands'⟩ := ih (fun z hz => h z (List.mem_cons_of_mem _ hz)) hafter
      (fun id hid => hN id (.inr hid)) hc.2 ht.2
    refine ⟨fun y hy => ?_, hstands, hstands'⟩
    simp only [checkStmts, Checked.types_bind, List.mem_append] at hy
    exact hy.elim (hx y) (hrest y)

/-- The elements of an accepted iterator have the type of the iterator or of an element of it. -/
theorem value_checkIterator (h : (checkIterator s scope e).issues = []) :
    (checkIterator s scope e).types = (checkExpr s scope e).types ∧
      ((checkIterator s scope e).value = (checkExpr s scope e).value ∨
        (checkIterator s scope e).value = (checkExpr s scope e).value.indexed) := by
  cases hd : isDisplay e with
  | true => simp [checkIterator, hd] at h
  | false =>
    simp only [checkIterator, hd, Bool.false_eq_true, if_false, Checked.issues_bind,
      List.append_eq_nil_iff] at h
    simp only [checkIterator, hd, Bool.false_eq_true, if_false, Checked.types_bind,
      Checked.value_bind]
    split
    · exact ⟨by simp, .inl rfl⟩
    · rename_i hu
      split
      · rename_i ha
        simp [hu, ha] at h
      · exact ⟨by simp, .inr rfl⟩

private theorem visitsIn (hI : Binds s T N I) (x : Stmt) : VisitsIn s T N I x := by
  induction x using Stmt.partsInduction with
  | ifElse p test body orelse ihb iho =>
    intro scope hs hN hc ht
    simp only [checkStmt, Checked.issues_bind, Checked.issues_pure, List.append_nil,
      List.append_eq_nil_iff] at hc
    simp only [checkStmt, Checked.types_bind, Checked.types_pure, List.append_nil,
      List.append_subset] at ht
    simp only [Stmt.bound, List.mem_append] at hN
    obtain ⟨hc, -, hb, ho⟩ := hc
    obtain ⟨tc, -, tb, te⟩ := ht
    obtain ⟨hvb, hsb⟩ := visits_block ihb hs (fun id hid => hN id (.inl hid)) hb tb
    obtain ⟨hvo, hso⟩ := visits_block iho hs (fun id hid => hN id (.inr hid)) ho te
    refine ⟨fun y hy => ?_, ⟨⟨(checkExpr s scope test).value, scope, hs, hc, rfl, tc⟩, hsb, hso⟩,
      hs⟩
    simp only [checkStmt, Checked.types_bind, (quiet_judgeCondition _).2, Checked.types_pure,
      List.append_nil, List.nil_append, List.mem_append] at hy
    rcases hy with hy | hy | hy
    · exact visits_expr hI hs hc tc y hy
    · exact hvb y hy
    · exact hvo y hy
  | forEach p target iter body orelse ihb iho =>
    intro scope hs hN hc ht
    simp only [checkStmt, Checked.issues_bind, Checked.issues_pure, List.append_nil,
      List.append_eq_nil_iff] at hc
    simp only [checkStmt, Checked.types_bind, Checked.types_pure, List.append_nil,
      List.append_subset] at ht
    simp only [Stmt.bound, List.mem_append] at hN
    obtain ⟨helse, htarget, hiter, hbody⟩ := hc
    obtain ⟨-, -, ti, tb⟩ := ht
    obtain ⟨htypes, hvalue⟩ := value_checkIterator hiter
    obtain ⟨hic, -⟩ := clean_of_checkIterator hiter
    rw [htypes] at ti
    have hiterator : Visits s T I (iter, (checkExpr s scope iter).value) :=
      ⟨scope, hs, hic, rfl, ti⟩
    obtain ⟨hname, hinner⟩ := hI.bindScope hs htarget
      (fun id hid => hN id (.inl (Option.mem_toList.2 hid))) hiterator hvalue true
    obtain ⟨hvb, hsb⟩ := visits_block ihb hinner (fun id hid => hN id (.inr (.inl hid))) hbody tb
    refine ⟨fun y hy => ?_, ⟨hname, ⟨_, hiterator⟩, hsb, by simpa using helse⟩, hs⟩
    simp only [checkStmt, Checked.types_bind, Checked.types_reportIf, (quiet_checkTarget target).2,
      htypes, Checked.types_pure, List.append_nil, List.nil_append, List.mem_append] at hy
    rcases hy with hy | hy
    · exact visits_expr hI hs hic ti y hy
    · exact hvb y hy
  | assign p targets value =>
    intro scope hs hN hc ht
    simp only [checkStmt, Checked.issues_bind, List.append_eq_nil_iff] at hc
    simp only [checkStmt, Checked.types_bind, List.append_subset] at ht
    obtain ⟨hv, hc⟩ := hc
    split at hc
    · rename_i target
      simp only [Checked.issues_bind, List.append_eq_nil_iff] at hc
      have hvalue : Visits s T I (value, (checkExpr s scope value).value) :=
        ⟨scope, hs, hv, rfl, ht.1⟩
      obtain ⟨⟨q, id, rfl⟩, hafter⟩ := hI.bindScope hs hc.1
        (fun id hid => hN id (by simpa [Stmt.bound] using hid)) hvalue (.inl rfl) false
      refine ⟨fun y hy => ?_, ⟨⟨q, id, rfl⟩, ⟨_, hvalue⟩⟩, hafter⟩
      simp only [checkStmt, Checked.types_bind, (quiet_checkTarget _).2, Checked.types_pure,
        List.append_nil] at hy
      exact visits_expr hI hs hv ht.1 y hy
    · simp at hc
  | expr p value =>
    intro scope hs hN hc ht
    cases hcom : (Stmt.expr p value).isComment with
    | true =>
      refine ⟨?_, .inl hcom, ?_⟩ <;> simp [checkStmt, hcom]
      exact hs
    | false =>
      simp only [checkStmt, hcom, Bool.false_eq_true, if_false, Checked.issues_bind,
        Checked.issues_pure, List.append_nil] at hc
      simp only [checkStmt, hcom, Bool.false_eq_true, if_false, Checked.types_bind,
        Checked.types_pure, List.append_nil] at ht
      refine ⟨fun y hy => ?_, .inr ⟨(checkExpr s scope value).value, scope, hs, hc, rfl, ht⟩, ?_⟩
      · exact visits_expr hI hs hc ht y (by simpa [checkStmt, hcom] using hy)
      · simpa [checkStmt, hcom] using hs
  | pass p =>
    intro scope hs hN hc ht
    exact ⟨by simp [checkStmt], trivial, hs⟩
  | _ =>
    intro scope hs hN hc ht
    simp [checkStmt] at hc

/-- Everything that is visited in an accepted statement, and everything that stands in it, is
accepted in a scope all of whose bindings have a property that bindings of what is visited have. -/
theorem visits_of_isOk {b : Block} (h : (b.verify s).isOk = true)
    (hI : Binds s (b.verify s).types N I) (hN : ∀ id ∈ b.bound, N id) :
    (∀ x ∈ (b.verify s).types, Visits s (b.verify s).types I x) ∧
      Stmt.HoldsBlock (fun _ e => ∃ t, Visits s (b.verify s).types I (e, t)) b := by
  have hi : (checkStmts s [] b).issues = [] ∧ (checkStmts s [] b).requires ≠ 0 := by
    simpa [Block.verify, Verification.isOk] using h
  exact visits_block (fun x _ => visitsIn hI x) (by simp) hN hi.1 (List.Subset.refl _)

end Visits
end Verification
end ValidUsage
