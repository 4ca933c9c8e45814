import ValidUsage.Strip.Basic

/-!
# Folded forms, and what a build still decides in them

What folding gives is in folded form: no literal truth value is left where a rule of folding would
have used it. A folded form may still hold what the build decides: a choice that folding has made
can put a name or a number where a predicate or a comparison looks for one, after folding has
looked there. A statement is settled when it holds nothing of the kind. Tuples, lists and slices are
left alone by folding, and so they are here.
-/

namespace ValidUsage

namespace Expr

/-- Whether an expression is a negation. -/
def isNegation : Expr → Bool
  | unary _ .not _ => true
  | _ => false

/-- Whether a comparison is one for equality of two literal truth values. -/
def comparesLiterals (left : Expr) (ops : List CmpOp) (comparators : List Expr) : Bool :=
  match ops, comparators with
  | [.eq], [right] | [.notEq], [right] => left.bool?.isSome && right.bool?.isSome
  | _, _ => false

mutual

/-- Whether an expression is in folded form. -/
def isNormal : Expr → Bool
  | boolOp _ _ values =>
    isNormalList values && values.all (fun e => e.bool?.isNone) && decide (2 ≤ values.length)
  | unary _ op operand =>
    isNormal operand && (op != .not || (operand.bool?.isNone && !operand.isNegation))
  | compare _ left ops comparators =>
    isNormal left && isNormalList comparators && !comparesLiterals left ops comparators
  | ifExp _ test body orelse =>
    isNormal test && isNormal body && isNormal orelse && test.bool?.isNone
  | call _ func args => isNormal func && isNormalList args
  | binary _ left _ right => isNormal left && isNormal right
  | member _ value _ => isNormal value
  | subscript _ value index => isNormal value && isNormal index
  | name _ _ | const _ _ | tuple _ _ | list _ _ | slice _ _ _ _ => true

/-- Whether every expression of a list is in folded form. -/
def isNormalList : List Expr → Bool
  | [] => true
  | e :: es => isNormal e && isNormalList es

end

mutual

/-- Whether an expression holds no call and no comparison that a build decides. -/
def isSettled (b : Build) : Expr → Bool
  | call _ func args =>
    (b.aliasOfFeature? func args).isNone && (b.condition? func args).isNone &&
      isSettled b func && isSettledList b args
  | compare _ left ops comparators =>
    (missingValue? b left ops comparators).isNone && isSettled b left && isSettledList b comparators
  | boolOp _ _ values => isSettledList b values
  | unary _ _ operand => isSettled b operand
  | ifExp _ test body orelse => isSettled b test && isSettled b body && isSettled b orelse
  | binary _ left _ right => isSettled b left && isSettled b right
  | member _ value _ => isSettled b value
  | subscript _ value index => isSettled b value && isSettled b index
  | name _ _ | const _ _ | tuple _ _ | list _ _ | slice _ _ _ _ => true

/-- Whether no expression of a list holds what a build decides. -/
def isSettledList (b : Build) : List Expr → Bool
  | [] => true
  | e :: es => isSettled b e && isSettledList b es

end

/-! ## What folding gives -/

/-- Expressions are in folded form when each of them is. -/
theorem isNormalList_iff {es : List Expr} : isNormalList es ↔ ∀ e ∈ es, e.isNormal := by
  induction es with
  | nil => simp [isNormalList]
  | cons e es ih => simp [isNormalList, ih]

/-- Expressions hold nothing to decide when none of them does. -/
theorem isSettledList_iff {b : Build} {es : List Expr} :
    isSettledList b es ↔ ∀ e ∈ es, e.isSettled b := by
  induction es with
  | nil => simp [isSettledList]
  | cons e es ih => simp [isSettledList, ih]

private theorem isNormal_foldName (names : FoldedNames) (p : Pos) (id : String) :
    (foldName names p id).isNormal := by
  unfold foldName
  split <;> rfl

private theorem isNormal_foldAlias (b : Build) (names : FoldedNames) (p : Pos) (ext : String)
    (args : List Expr) : (foldAlias b names p ext args).isNormal := by
  unfold foldAlias
  split
  · simp only [isNormal, isNormalList, isNormal_foldName, Bool.and_true]
  · rfl

private theorem isNormal_foldBoolOp {p : Pos} {op : BoolOp} {values : List Expr}
    (h : isNormalList values) : (foldBoolOp p op values).isNormal := by
  have hlive : isNormalList (values.filter fun v => v.bool?.isNone) := by
    rw [isNormalList_iff] at h ⊢
    intro e he
    exact h e (List.mem_filter.mp he).1
  have hopen : (values.filter fun v => v.bool?.isNone).all fun v => v.bool?.isNone := by
    rw [List.all_eq_true]
    intro e he
    exact (List.mem_filter.mp he).2
  unfold foldBoolOp
  split
  · rfl
  · split
    · rfl
    · next v hone =>
      rw [hone] at hlive
      simpa [isNormalList] using hlive
    · next hnil hone =>
      rw [isNormal, hlive, hopen]
      simp only [Bool.and_true, Bool.true_and, decide_eq_true_eq]
      cases hlist : values.filter fun v => v.bool?.isNone with
      | nil => exact absurd hlist hnil
      | cons v vs =>
        cases vs with
        | nil => exact absurd hlist (hone v)
        | cons w ws => simp

private theorem isNormal_foldNot {p : Pos} {operand : Expr} (h : operand.isNormal) :
    (foldNot p operand).isNormal := by
  unfold foldNot
  split
  · rfl
  · next hopen =>
    split
    · simp only [isNormal, Bool.and_eq_true] at h
      exact h.1
    · next hnot =>
      have hneg : operand.isNegation = false := by
        unfold isNegation
        split
        · next q inner => exact absurd rfl (hnot q inner)
        · rfl
      simp [isNormal, h, hopen, hneg]

private theorem comparesLiterals_of_other {left : Expr} {ops : List CmpOp}
    {comparators : List Expr} (heq : ∀ right, ops = [.eq] → comparators = [right] → False)
    (hne : ∀ right, ops = [.notEq] → comparators = [right] → False) :
    comparesLiterals left ops comparators = false := by
  unfold comparesLiterals
  split
  · next right => exact absurd rfl (heq right rfl)
  · next right => exact absurd rfl (hne right rfl)
  · rfl

/-- A comparison of two literals is decided, and any other stays. -/
theorem foldCompare_eq (p : Pos) (left : Expr) (ops : List CmpOp) (comparators : List Expr) :
    (comparesLiterals left ops comparators = true ∧
      ∃ c, foldCompare p left ops comparators = ofBool p c) ∨
    (comparesLiterals left ops comparators = false ∧
      foldCompare p left ops comparators = compare p left ops comparators) := by
  unfold foldCompare
  split
  · next right =>
    cases hc : left.bool? with
    | none => exact Or.inr ⟨by simp [comparesLiterals, hc], rfl⟩
    | some c =>
      cases hd : right.bool? with
      | none => exact Or.inr ⟨by simp [comparesLiterals, hd], rfl⟩
      | some d => exact Or.inl ⟨by simp [comparesLiterals, hc, hd], _, rfl⟩
  · next right =>
    cases hc : left.bool? with
    | none => exact Or.inr ⟨by simp [comparesLiterals, hc], rfl⟩
    | some c =>
      cases hd : right.bool? with
      | none => exact Or.inr ⟨by simp [comparesLiterals, hd], rfl⟩
      | some d => exact Or.inl ⟨by simp [comparesLiterals, hc, hd], _, rfl⟩
  · next heq hne => exact Or.inr ⟨comparesLiterals_of_other heq hne, rfl⟩

private theorem isNormal_foldCompare {p : Pos} {left : Expr} {ops : List CmpOp}
    {comparators : List Expr} (hl : left.isNormal) (hr : isNormalList comparators) :
    (foldCompare p left ops comparators).isNormal := by
  rcases foldCompare_eq p left ops comparators with ⟨_, c, hc⟩ | ⟨hopen, hkeep⟩
  · rw [hc]
    rfl
  · rw [hkeep, isNormal, hl, hr, hopen]
    rfl

mutual

/-- What folding gives is in folded form. -/
theorem isNormal_fold (b : Build) (names : FoldedNames) : ∀ e : Expr, (e.fold b names).isNormal
  | name p id => by
    rw [fold]
    exact isNormal_foldName names p id
  | const p c => rfl
  | boolOp p op values => by
    rw [fold]
    exact isNormal_foldBoolOp (isNormalList_fold b names values)
  | binary p left op right => by
    rw [fold, isNormal, isNormal_fold b names left, isNormal_fold b names right, Bool.and_self]
  | unary p op operand => by
    have hoperand := isNormal_fold b names operand
    rw [fold]
    split
    · exact isNormal_foldNot hoperand
    · next hop => simp [isNormal, hoperand, hop]
  | compare p left ops comparators => by
    rw [fold]
    split
    · rfl
    · exact isNormal_foldCompare (isNormal_fold b names left)
        (isNormalList_fold b names comparators)
  | call p func args => by
    rw [fold]
    split
    · exact isNormal_foldAlias b names p _ args
    · split
      · rfl
      · rw [isNormal, isNormal_fold b names func, isNormalList_fold b names args, Bool.and_self]
  | member p value attr => by
    rw [fold, isNormal]
    exact isNormal_fold b names value
  | subscript p value index => by
    rw [fold, isNormal, isNormal_fold b names value, isNormal_fold b names index, Bool.and_self]
  | ifExp p test body orelse => by
    rw [fold]
    split
    · exact isNormal_fold b names body
    · exact isNormal_fold b names orelse
    · next hopen =>
      simp [isNormal, isNormal_fold b names test, isNormal_fold b names body,
        isNormal_fold b names orelse, hopen]
  | tuple p elts | list p elts | slice p l u s => rfl

private theorem isNormalList_fold (b : Build) (names : FoldedNames) : ∀ es : List Expr,
    isNormalList (foldList b names es)
  | [] => rfl
  | e :: es => by
    rw [foldList, isNormalList, isNormal_fold b names e, isNormalList_fold b names es,
      Bool.and_self]

end

/-! ## What folding leaves alone -/

private theorem foldBoolOp_of_open {p : Pos} {op : BoolOp} {values : List Expr}
    (h : values.all fun e => e.bool?.isNone) (hlength : 2 ≤ values.length) :
    foldBoolOp p op values = boolOp p op values := by
  rw [List.all_eq_true] at h
  have hfilter : (values.filter fun v => v.bool?.isNone) = values :=
    List.filter_eq_self.mpr h
  have hany : ¬ values.any fun v => v.bool? == some (op == .or) := by
    intro hany
    obtain ⟨v, hv, hc⟩ := List.any_eq_true.mp hany
    have hnone := h v hv
    rw [beq_iff_eq.mp hc] at hnone
    cases hnone
  rw [foldBoolOp, if_neg hany, hfilter]
  cases values with
  | nil => simp at hlength
  | cons v vs =>
    cases vs with
    | nil => simp at hlength
    | cons w ws => rfl

private theorem foldNot_of_open {p : Pos} {operand : Expr} (hopen : operand.bool? = none)
    (hneg : operand.isNegation = false) : foldNot p operand = unary p .not operand := by
  unfold foldNot
  rw [hopen]
  cases operand with
  | unary q op inner =>
    cases op with
    | not => cases hneg
    | _ => rfl
  | _ => rfl

private theorem foldCompare_of_open {p : Pos} {left : Expr} {ops : List CmpOp}
    {comparators : List Expr} (h : comparesLiterals left ops comparators = false) :
    foldCompare p left ops comparators = compare p left ops comparators := by
  rcases foldCompare_eq p left ops comparators with ⟨hboth, _⟩ | ⟨_, hkeep⟩
  · rw [h] at hboth
    cases hboth
  · exact hkeep

mutual

/-- Folding leaves alone what is in folded form and holds nothing that the build decides. -/
theorem fold_of_isSettled {b : Build} : ∀ e : Expr, e.isNormal → e.isSettled b →
    e.fold b .empty = e
  | name p id, _, _ => rfl
  | const p c, _, _ => rfl
  | boolOp p op values, hnormal, hsettled => by
    simp only [isNormal, Bool.and_eq_true, decide_eq_true_eq] at hnormal
    rw [isSettled] at hsettled
    rw [fold, foldList_of_isSettled values hnormal.1.1 hsettled]
    exact foldBoolOp_of_open hnormal.1.2 hnormal.2
  | binary p left op right, hnormal, hsettled => by
    simp only [isNormal, isSettled, Bool.and_eq_true] at hnormal hsettled
    rw [fold, fold_of_isSettled left hnormal.1 hsettled.1,
      fold_of_isSettled right hnormal.2 hsettled.2]
  | unary p op operand, hnormal, hsettled => by
    simp only [isNormal, Bool.and_eq_true, Bool.or_eq_true, bne_iff_ne, ne_eq,
      Option.isNone_iff_eq_none, Bool.not_eq_true'] at hnormal
    rw [isSettled] at hsettled
    rw [fold, fold_of_isSettled operand hnormal.1 hsettled]
    by_cases hop : op = .not
    · subst hop
      have hopen := hnormal.2.resolve_left (fun h => h rfl)
      rw [if_pos rfl, foldNot_of_open hopen.1 hopen.2]
    · rw [if_neg hop]
  | compare p left ops comparators, hnormal, hsettled => by
    simp only [isNormal, isSettled, Bool.and_eq_true, Bool.not_eq_true',
      Option.isNone_iff_eq_none] at hnormal hsettled
    rw [fold, hsettled.1.1, fold_of_isSettled left hnormal.1.1 hsettled.1.2,
      foldList_of_isSettled comparators hnormal.1.2 hsettled.2]
    exact foldCompare_of_open hnormal.2
  | call p func args, hnormal, hsettled => by
    simp only [isNormal, isSettled, Bool.and_eq_true, Option.isNone_iff_eq_none] at hnormal hsettled
    rw [fold, hsettled.1.1.1]
    simp only [hsettled.1.1.2]
    rw [fold_of_isSettled func hnormal.1 hsettled.1.2,
      foldList_of_isSettled args hnormal.2 hsettled.2]
  | member p value attr, hnormal, hsettled => by
    rw [isNormal] at hnormal
    rw [isSettled] at hsettled
    rw [fold, fold_of_isSettled value hnormal hsettled]
  | subscript p value index, hnormal, hsettled => by
    simp only [isNormal, isSettled, Bool.and_eq_true] at hnormal hsettled
    rw [fold, fold_of_isSettled value hnormal.1 hsettled.1,
      fold_of_isSettled index hnormal.2 hsettled.2]
  | ifExp p test body orelse, hnormal, hsettled => by
    simp only [isNormal, isSettled, Bool.and_eq_true, Option.isNone_iff_eq_none] at hnormal hsettled
    rw [fold, fold_of_isSettled test hnormal.1.1.1 hsettled.1.1, hnormal.2,
      fold_of_isSettled body hnormal.1.1.2 hsettled.1.2,
      fold_of_isSettled orelse hnormal.1.2 hsettled.2]
  | tuple p elts, _, _ | list p elts, _, _ | slice p l u s, _, _ => rfl

private theorem foldList_of_isSettled {b : Build} : ∀ es : List Expr, isNormalList es →
    isSettledList b es → foldList b .empty es = es
  | [], _, _ => rfl
  | e :: es, hnormal, hsettled => by
    simp only [isNormalList, isSettledList, Bool.and_eq_true] at hnormal hsettled
    rw [foldList, fold_of_isSettled e hnormal.1 hsettled.1,
      foldList_of_isSettled es hnormal.2 hsettled.2]

end

private theorem isNormal_negated {e : Expr} (h : e.isNormal) (hopen : e.bool? = none) :
    e.negated.isNormal ∧ e.negated.bool? = none := by
  unfold negated
  split
  · simp only [isNormal, Bool.and_eq_true, Bool.or_eq_true, bne_self_eq_false, Bool.false_eq_true,
      false_or, Option.isNone_iff_eq_none] at h
    exact ⟨h.1, h.2.1⟩
  · next hnot =>
    have hneg : e.isNegation = false := by
      unfold isNegation
      split
      · next q inner => exact absurd rfl (hnot q inner)
      · rfl
    exact ⟨by simp [isNormal, h, hopen, hneg], rfl⟩

end Expr

/-! ## Statements -/

namespace Stmt

mutual

/-- Whether a statement is in folded form: its blocks hold more than comments. -/
def isNormal : Stmt → Bool
  | assign _ targets value => value.isNormal && (constantBinding? targets value).isNone
  | ifElse _ test body orelse =>
    test.isNormal && test.bool?.isNone && !body.all isComment &&
      (orelse.isEmpty || !orelse.all isComment) && isNormalBlock body && isNormalBlock orelse
  | forEach _ _ iter body _ => iter.isNormal && !body.all isComment && isNormalBlock body
  | expr p value => (expr p value).isComment || value.isNormal
  | _ => true

/-- Whether every statement of a block is in folded form. -/
def isNormalBlock : Block → Bool
  | [] => true
  | s :: ss => isNormal s && isNormalBlock ss

end

/-- Whether an expression is a requirement of `True`. -/
def requiresTrue (e : Expr) : Bool :=
  e.callName? == some Predicate.require.name && firstArgument? e == some true

mutual

/-- Whether a statement holds no call, no comparison and no requirement that a build decides. -/
def isSettled (b : Build) : Stmt → Bool
  | assign _ _ value => value.isSettled b
  | ifElse _ test body orelse =>
    test.isSettled b && isSettledBlock b body && isSettledBlock b orelse
  | forEach _ _ iter body _ => iter.isSettled b && isSettledBlock b body
  | expr p value => (expr p value).isComment || (value.isSettled b && !requiresTrue value)
  | _ => true

/-- Whether no statement of a block holds what a build decides. -/
def isSettledBlock (b : Build) : Block → Bool
  | [] => true
  | s :: ss => isSettled b s && isSettledBlock b ss

end

private theorem isNormalBlock_append {c d : Block} :
    isNormalBlock (c ++ d) = (isNormalBlock c && isNormalBlock d) := by
  induction c with
  | nil => rfl
  | cons s ss ih => rw [List.cons_append, isNormalBlock, isNormalBlock, ih, Bool.and_assoc]

/-- A block is in folded form when each statement of it is. -/
theorem isNormalBlock_iff {b : Block} : isNormalBlock b = true ↔ ∀ s ∈ b, s.isNormal = true := by
  induction b with
  | nil => simp [isNormalBlock]
  | cons s ss ih => simp [isNormalBlock, ih]

/-- What is left of a block is nothing, or all of it, which is more than comments. -/
theorem live_stmts (x : Folded) :
    x.live.stmts = [] ∨ (x.live.stmts = x.stmts ∧ x.stmts.all isComment = false) := by
  unfold Folded.live
  split
  · exact Or.inl rfl
  · next h => exact Or.inr ⟨rfl, by simpa using h⟩

private theorem isNormalBlock_live {x : Folded} (h : isNormalBlock x.stmts) :
    isNormalBlock x.live.stmts := by
  rcases live_stmts x with hnil | ⟨hsame, _⟩
  · rw [hnil]
    rfl
  · rw [hsame]
    exact h

private theorem isNormalBlock_foldIf {p : Pos} {test : Expr} {body orelse : Folded}
    (htest : test.isNormal) (hopen : test.bool? = none) (hbody : isNormalBlock body.stmts)
    (horelse : isNormalBlock orelse.stmts) :
    isNormalBlock (foldIf p test body.live orelse.live).stmts := by
  have hb := isNormalBlock_live hbody
  have ho := isNormalBlock_live horelse
  obtain ⟨hn, hnopen⟩ := Expr.isNormal_negated htest hopen
  unfold foldIf
  rcases live_stmts body with hbnil | ⟨hbsame, hbmore⟩
  · rcases live_stmts orelse with honil | ⟨hosame, homore⟩
    · simp [hbnil, honil, isNormalBlock]
    · have hne : orelse.stmts ≠ [] := by
        rintro hnil
        simp [hnil] at homore
      rw [hosame] at ho ⊢
      simp only [hbnil, List.isEmpty_nil, if_true, List.isEmpty_iff, hne, if_false]
      simp [isNormalBlock, isNormal, hn, hnopen, homore, ho]
  · have hne : body.stmts ≠ [] := by
      rintro hnil
      simp [hnil] at hbmore
    rw [hbsame] at hb ⊢
    simp only [List.isEmpty_iff, hne, if_false]
    have horelse' : orelse.live.stmts = [] ∨ orelse.live.stmts.all isComment = false := by
      rcases live_stmts orelse with honil | ⟨hosame, homore⟩
      · exact Or.inl honil
      · rw [hosame]
        exact Or.inr homore
    rcases horelse' with honil | homore
    · simp [isNormalBlock, isNormal, htest, hopen, hbmore, hb, honil]
    · simp [isNormalBlock, isNormal, htest, hopen, hbmore, hb, homore, ho]

private theorem isNormal_expr {p : Pos} {value : Expr} (h : value.isNormal) :
    (expr p value).isNormal := by
  rw [isNormal, h, Bool.or_true]

mutual

/-- What folding makes of a statement is in folded form. -/
theorem isNormalBlock_fold (b : Build) : ∀ (s : Stmt) (names : FoldedNames),
    isNormalBlock (fold b names s).stmts
  | assign p targets value, names => by
    rw [fold]
    split
    · rfl
    · next hopen =>
      simp [Folded.one, isNormalBlock, isNormal, Expr.isNormal_fold, hopen]
  | ifElse p test body orelse, names => by
    rw [fold]
    split
    · exact isNormalBlock_live (isNormalBlock_foldBlock b body names)
    · exact isNormalBlock_live (isNormalBlock_foldBlock b orelse names)
    · next hopen =>
      exact isNormalBlock_foldIf (Expr.isNormal_fold b names test) hopen
        (isNormalBlock_foldBlock b body names) (isNormalBlock_foldBlock b orelse names)
  | forEach p target iter body orelse, names => by
    have hbody := isNormalBlock_live (isNormalBlock_foldBlock b body names)
    rw [fold]
    rcases live_stmts (foldBlock b names body) with hnil | ⟨hsame, hmore⟩
    · simp [hnil, isNormalBlock]
    · have hne : (foldBlock b names body).stmts ≠ [] := by
        rintro hnil
        simp [hnil] at hmore
      rw [hsame] at hbody
      simp [hsame, hne, isNormalBlock, isNormal, Expr.isNormal_fold, hmore, hbody]
  | expr p value, names => by
    have hvalue := isNormal_expr (p := p) (Expr.isNormal_fold b names value)
    rw [fold]
    split
    · next hcomment => simp [Folded.one, isNormalBlock, isNormal, hcomment]
    · split
      · unfold foldRequire
        split
        · rfl
        · rw [isNormalBlock, hvalue, isNormalBlock, Bool.and_self]
        · rw [Folded.one, isNormalBlock, hvalue, isNormalBlock, Bool.and_self]
      · rw [Folded.one, isNormalBlock, hvalue, isNormalBlock, Bool.and_self]
  | update p t o v, _ | whileDo p t c o, _ | pass p, _ | breakOut p, _ | nextRound p, _ => rfl

private theorem isNormalBlock_foldBlock (b : Build) : ∀ (ss : Block) (names : FoldedNames),
    isNormalBlock (foldBlock b names ss).stmts
  | [], _ => rfl
  | s :: ss, names => by
    rw [foldBlock, Folded.append, isNormalBlock_append, isNormalBlock_fold b s names,
      isNormalBlock_foldBlock b ss _, Bool.and_self]

end

private theorem live_of_open {x : Folded} (h : x.stmts.all isComment = false) : x.live = x := by
  rw [Folded.live, h]
  rfl

private theorem live_stmts_of_open {x : Folded}
    (h : x.stmts = [] ∨ x.stmts.all isComment = false) : x.live.stmts = x.stmts := by
  rcases h with hnil | hmore
  · simp [Folded.live, hnil]
  · rw [live_of_open hmore]

private theorem foldNames_of_isSettled {b : Build} {s : Stmt} (hnormal : s.isNormal)
    (hsettled : s.isSettled b) : foldNames b .empty s = .empty := by
  cases s with
  | assign p targets value =>
    simp only [isNormal, Bool.and_eq_true, Option.isNone_iff_eq_none] at hnormal
    rw [isSettled] at hsettled
    simp only [foldNames, Expr.fold_of_isSettled value hnormal.1 hsettled, hnormal.2]
  | _ => rfl

private theorem foldRequire_of_isSettled {s : Stmt} {p : Pos} {value : Expr}
    (h : firstArgument? value ≠ some true) : (foldRequire s p value).stmts = [expr p value] := by
  unfold foldRequire
  split
  · next htrue => exact absurd htrue h
  · rfl
  · rfl

mutual

/-- Folding leaves alone a statement in folded form that holds nothing that the build decides. -/
theorem fold_of_isSettled {b : Build} : ∀ s : Stmt, s.isNormal → s.isSettled b →
    (fold b .empty s).stmts = [s]
  | assign p targets value, hnormal, hsettled => by
    simp only [isNormal, Bool.and_eq_true, Option.isNone_iff_eq_none] at hnormal
    rw [isSettled] at hsettled
    simp only [fold, Expr.fold_of_isSettled value hnormal.1 hsettled, hnormal.2, Folded.one]
  | ifElse p test body orelse, hnormal, hsettled => by
    simp only [isNormal, Bool.and_eq_true, Bool.or_eq_true, Bool.not_eq_true',
      Option.isNone_iff_eq_none, List.isEmpty_iff] at hnormal
    obtain ⟨⟨⟨⟨⟨htest, hopen⟩, hmore⟩, helse⟩, hbody⟩, horelse⟩ := hnormal
    simp only [isSettled, Bool.and_eq_true] at hsettled
    have hb := foldBlock_of_isSettled body hbody hsettled.1.2
    have ho := foldBlock_of_isSettled orelse horelse hsettled.2
    have hblive := live_stmts_of_open (x := foldBlock b .empty body) (Or.inr (by rw [hb, hmore]))
    have holive := live_stmts_of_open (x := foldBlock b .empty orelse) (by rwa [ho])
    have hne : body ≠ [] := by
      rintro rfl
      simp at hmore
    rw [fold, Expr.fold_of_isSettled test htest hsettled.1.1, hopen]
    simp [foldIf, hblive, holive, hb, ho, hne]
  | forEach p target iter body orelse, hnormal, hsettled => by
    simp only [isNormal, Bool.and_eq_true, Bool.not_eq_true'] at hnormal
    obtain ⟨⟨hiter, hmore⟩, hbody⟩ := hnormal
    simp only [isSettled, Bool.and_eq_true] at hsettled
    have hb := foldBlock_of_isSettled body hbody hsettled.2
    have hblive := live_stmts_of_open (x := foldBlock b .empty body) (Or.inr (by rw [hb, hmore]))
    have hne : body ≠ [] := by
      rintro rfl
      simp at hmore
    rw [fold, Expr.fold_of_isSettled iter hiter hsettled.1]
    simp [hblive, hb, hne]
  | expr p value, hnormal, hsettled => by
    rw [fold]
    by_cases hcomment : (expr p value).isComment = true
    · rw [if_pos hcomment, Folded.one]
    · rw [if_neg hcomment]
      rw [isNormal, Bool.or_eq_true, or_iff_right hcomment] at hnormal
      rw [isSettled, Bool.or_eq_true, or_iff_right hcomment, Bool.and_eq_true,
        Bool.not_eq_true'] at hsettled
      rw [Expr.fold_of_isSettled value hnormal hsettled.1]
      by_cases hcall : value.callName? = some Predicate.require.name
      · rw [if_pos hcall]
        refine foldRequire_of_isSettled ?_
        intro htrue
        simp [requiresTrue, hcall, htrue] at hsettled
      · rw [if_neg hcall, Folded.one]
  | update p t o v, _, _ | whileDo p t c o, _, _ | pass p, _, _ | breakOut p, _, _
  | nextRound p, _, _ => rfl

private theorem foldBlock_of_isSettled {b : Build} : ∀ ss : Block, isNormalBlock ss →
    isSettledBlock b ss → (foldBlock b .empty ss).stmts = ss
  | [], _, _ => rfl
  | s :: ss, hnormal, hsettled => by
    simp only [isNormalBlock, isSettledBlock, Bool.and_eq_true] at hnormal hsettled
    rw [foldBlock, Folded.append, fold_of_isSettled s hnormal.1 hsettled.1,
      foldNames_of_isSettled hnormal.1 hsettled.1,
      foldBlock_of_isSettled ss hnormal.2 hsettled.2, List.singleton_append]

end

/-! ## Taking dead code away -/

/-- What settling leaves of a block is nothing, or all of it, which is more than comments. -/
theorem settle_left (c : Block) (changed : Bool) :
    (settle c changed).left = none ∨
      ((settle c changed).left = some c ∧ c.all isComment = false ∧
        (settle c changed).changed = changed) := by
  unfold settle
  split
  · exact Or.inl rfl
  · split
    · exact Or.inl rfl
    · next h => exact Or.inr ⟨rfl, by simpa using h, rfl⟩

private theorem isNormal_settleIf {p : Pos} {test : Expr} {body orelse : Block} {c d : Bool}
    (htest : test.isNormal) (hopen : test.bool? = none) (hbody : isNormalBlock body)
    (horelse : isNormalBlock orelse) :
    ((settleIf p test (settle body c) (settle orelse d)).left).all isNormal := by
  obtain ⟨hn, hnopen⟩ := Expr.isNormal_negated htest hopen
  rcases settle_left body c with hb | ⟨hb, hbmore, _⟩
  · rcases settle_left orelse d with ho | ⟨ho, homore, _⟩
    · simp [settleIf, hb, ho]
    · simp [settleIf, hb, ho, isNormal, isNormalBlock, hn, hnopen, homore, horelse]
  · rcases settle_left orelse d with ho | ⟨ho, homore, _⟩
    · simp [settleIf, hb, ho, isNormal, isNormalBlock, htest, hopen, hbmore, hbody]
    · simp [settleIf, hb, ho, isNormal, htest, hopen, hbmore, hbody, homore, horelse]

mutual

/-- What a round leaves of a statement in folded form is in folded form. -/
theorem isNormal_prune (unused : List String) : ∀ s : Stmt, s.isNormal →
    (prune unused s).left.all isNormal
  | pass p, _ => rfl
  | ifElse p test body orelse, h => by
    simp only [isNormal, Bool.and_eq_true, Option.isNone_iff_eq_none] at h
    obtain ⟨⟨⟨⟨⟨htest, hopen⟩, _⟩, _⟩, hbody⟩, horelse⟩ := h
    rw [prune]
    exact isNormal_settleIf htest hopen (isNormalBlock_prune unused body hbody)
      (isNormalBlock_prune unused orelse horelse)
  | forEach p target iter body orelse, h => by
    simp only [isNormal, Bool.and_eq_true] at h
    have hbody := isNormalBlock_prune unused body h.2
    rw [prune]
    rcases settle_left (pruneStmts unused body).1 (pruneStmts unused body).2 with
      hnone | ⟨hsome, hmore, _⟩
    · simp [hnone]
    · simp [hsome, isNormal, h.1.1, hmore, hbody]
  | assign p ts v, h => by
    simp only [prune]
    split
    · rfl
    · exact h
  | expr p v, h => h
  | update p t o v, _ | whileDo p t c o, _ | breakOut p, _ | nextRound p, _ => rfl

/-- A round without dead code keeps the folded form. -/
theorem isNormalBlock_prune (unused : List String) : ∀ ss : Block, isNormalBlock ss →
    isNormalBlock (pruneStmts unused ss).1
  | [], _ => rfl
  | s :: ss, h => by
    rw [isNormalBlock, Bool.and_eq_true] at h
    have hs := isNormal_prune unused s h.1
    have hss := isNormalBlock_prune unused ss h.2
    rw [pruneStmts]
    split
    · next s' hleft =>
      rw [hleft] at hs
      rw [isNormalBlock, hss, Bool.and_true]
      exact hs
    · exact hss

end

private theorem settle_of_unchanged {c : Block} {x : Block × Bool} (hmore : c.all isComment = false)
    (hx : x.2 = false → x.1 = c) (h : (settle x.1 x.2).changed = false) :
    settle x.1 x.2 = ⟨some c, false⟩ := by
  obtain ⟨d, changed⟩ := x
  unfold settle at h ⊢
  split at h
  · next hnil =>
    obtain rfl := hx h
    obtain rfl := List.isEmpty_iff.mp hnil
    simp at hmore
  · next hne =>
    split at h
    · cases h
    · next hcomments =>
      obtain rfl : changed = false := h
      obtain rfl := hx rfl
      rw [if_neg hne, if_neg hcomments]

mutual

/-- A round that takes nothing away from a statement in folded form leaves it as it is. -/
theorem prune_of_unchanged {unused : List String} : ∀ {s s' : Stmt}, s.isNormal →
    prune unused s = ⟨some s', false⟩ → s' = s
  | ifElse p test body orelse, s', h, hprune => by
    simp only [isNormal, Bool.and_eq_true, Bool.or_eq_true, Bool.not_eq_true',
      List.isEmpty_iff] at h
    obtain ⟨⟨⟨⟨_, hmore⟩, helse⟩, hbody⟩, horelse⟩ := h
    rw [prune] at hprune
    have hchanged := congrArg Pruned.changed hprune
    simp only [settleIf, Bool.or_eq_false_iff] at hchanged
    have hb := settle_of_unchanged hmore (pruneStmts_of_unchanged hbody) hchanged.1
    have ho : settle (pruneStmts unused orelse).1 (pruneStmts unused orelse).2 =
        ⟨if orelse = [] then none else some orelse, false⟩ := by
      by_cases hnil : orelse = []
      · subst hnil
        rfl
      · rw [if_neg hnil]
        exact settle_of_unchanged (helse.resolve_left hnil) (pruneStmts_of_unchanged horelse)
          hchanged.2
    rw [hb, ho] at hprune
    by_cases hnil : orelse = []
    · subst hnil
      simpa [settleIf, eq_comm] using hprune
    · simpa [settleIf, hnil, eq_comm] using hprune
  | forEach p target iter body orelse, s', h, hprune => by
    simp only [isNormal, Bool.and_eq_true, Bool.not_eq_true'] at h
    rw [prune] at hprune
    have hb := settle_of_unchanged h.1.2 (pruneStmts_of_unchanged h.2)
      (congrArg Pruned.changed hprune)
    rw [hb] at hprune
    simpa [eq_comm] using hprune
  | pass p, s', _, hprune => by simp [prune] at hprune
  | assign p ts v, s', _, hprune | expr p v, s', _, hprune | update p t o v, s', _, hprune
  | whileDo p t c o, s', _, hprune | breakOut p, s', _, hprune | nextRound p, s', _, hprune => by
    simp only [prune, Pruned.mk.injEq, and_true] at hprune
    split at hprune
    · cases hprune
    · exact (Option.some.inj hprune).symm

private theorem pruneStmts_of_unchanged {unused : List String} : ∀ {ss : Block}, isNormalBlock ss →
    (pruneStmts unused ss).2 = false → (pruneStmts unused ss).1 = ss
  | [], _, _ => rfl
  | s :: ss, h, hprune => by
    rw [isNormalBlock, Bool.and_eq_true] at h
    rw [pruneStmts] at hprune ⊢
    cases hs : prune unused s with
    | mk left changed =>
      cases left with
      | none => simp [hs] at hprune
      | some s' =>
        simp only [hs, Bool.or_eq_false_iff] at hprune ⊢
        obtain ⟨rfl, hrest⟩ := hprune
        rw [prune_of_unchanged h.1 hs, pruneStmts_of_unchanged h.2 hrest]

end

end Stmt

/-! ## Whole statements -/

namespace Block

open Stmt

/-- What a round leaves of a block, if anything is left. -/
theorem prune_eq_some {c d : Block} {changed : Bool} (h : c.prune = ⟨some d, changed⟩) :
    pruneStmts c.unusedNames c = (d, changed) ∧ d.all isComment = false := by
  rw [prune] at h
  rcases settle_left (pruneStmts c.unusedNames c).1 (pruneStmts c.unusedNames c).2 with
    hnone | ⟨hsome, hmore, hchanged⟩
  · rw [h] at hnone
    cases hnone
  · rw [h] at hsome hchanged
    obtain rfl := Option.some.inj hsome
    exact ⟨Prod.ext rfl hchanged.symm, hmore⟩

/-- What is left without dead code is in folded form and has no dead code. -/
theorem normal_of_withoutDeadCode {b c : Block} (hnormal : isNormalBlock b)
    (h : b.withoutDeadCode = some c) :
    isNormalBlock c ∧ c.all isComment = false ∧ c.prune = ⟨some c, false⟩ := by
  induction b using withoutDeadCode.induct with
  | case1 b changed hprune =>
    rw [withoutDeadCode, hprune] at h
    cases h
  | case2 b left hprune =>
    rw [withoutDeadCode, hprune] at h
    obtain rfl := Option.some.inj h
    obtain ⟨hleft, hmore⟩ := prune_eq_some hprune
    have hsame := pruneStmts_of_unchanged hnormal (congrArg Prod.snd hleft)
    rw [hleft] at hsame
    obtain rfl := hsame
    exact ⟨hnormal, hmore, hprune⟩
  | case3 b left hprune ih =>
    rw [withoutDeadCode, hprune] at h
    refine ih ?_ h
    have hleft := isNormalBlock_prune b.unusedNames b hnormal
    rwa [(prune_eq_some hprune).1] at hleft

/-- Folding gives the folded form. -/
theorem isNormalBlock_fold (b : Block) (build : Build) : isNormalBlock (b.fold build).stmts := by
  rcases live_stmts (foldBlock build .empty b) with hnil | ⟨hsame, _⟩
  · rw [fold, hnil]
    rfl
  · rw [fold, hsame]
    exact isNormalBlock_foldBlock build b .empty

/-- What a build leaves of a statement is in folded form and has no dead code. -/
theorem normal_of_strip {b c : Block} {build : Build} (h : (b.strip build).block = some c) :
    isNormalBlock c ∧ c.all isComment = false ∧ c.prune = ⟨some c, false⟩ :=
  normal_of_withoutDeadCode (isNormalBlock_fold b build) h

/-- A build leaves all of what it left before, if that holds nothing that the build decides. -/
theorem strip_of_isSettled {b c : Block} {build : Build} (h : (b.strip build).block = some c)
    (hsettled : isSettledBlock build c) : (c.strip build).block = some c := by
  obtain ⟨hnormal, hmore, hprune⟩ := normal_of_strip h
  have hfold := foldBlock_of_isSettled c hnormal hsettled
  have hlive : (c.fold build).stmts = c := by
    rw [fold, live_of_open (by rw [hfold, hmore]), hfold]
  rw [strip]
  simp only [hlive]
  exact withoutDeadCode_of_prune hprune

end Block
end ValidUsage
