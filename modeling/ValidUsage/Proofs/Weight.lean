import ValidUsage.Proofs.Settled

/-!
# Stripping makes statements lighter

The weight of a statement does not depend on positions and comments. Folding and taking dead code
away never make a statement heavier, and folding makes it lighter if it holds anything that the
build decides. A condition on a feature weighs more than one on an extension, so that the one is
lighter which stands for the other; a statement weighs more than the negation of a test, so that an
`if` gets lighter when its `else` takes the place of its block.
-/

namespace ValidUsage

namespace Expr

/-- What a call weighs more because of what is called. -/
def headWeight (func : Expr) : Nat :=
  if func.name? = some Predicate.isFeatureEnabled.name then 1 else 0

mutual

/-- The weight of an expression. -/
def weight : Expr → Nat
  | boolOp _ _ values => 2 + weightList values
  | binary _ left _ right => 2 + (weight left + weight right)
  | unary _ _ operand => 2 + weight operand
  | compare _ left _ comparators => 2 + (weight left + weightList comparators)
  | call _ func args => 2 + (headWeight func + weight func + weightList args)
  | member _ value _ => 2 + weight value
  | subscript _ value index => 2 + (weight value + weight index)
  | ifExp _ test body orelse => 2 + (weight test + weight body + weight orelse)
  | name _ _ | const _ _ => 2
  | tuple _ elts | list _ elts => 2 + weightList elts
  | slice _ lower upper step => 2 + (weightOption lower + weightOption upper + weightOption step)

/-- The weight of expressions. -/
def weightList : List Expr → Nat
  | [] => 0
  | e :: es => weight e + weightList es

/-- The weight of a bound of a slice. -/
def weightOption : Option Expr → Nat
  | none => 0
  | some e => weight e

end

private theorem two_le_weight (e : Expr) : 2 ≤ e.weight := by
  cases e <;> simp only [weight] <;> omega

private theorem headWeight_le_one (func : Expr) : headWeight func ≤ 1 := by
  unfold headWeight
  split <;> omega

private theorem headWeight_of_name?_eq_none {func : Expr} (h : func.name? = none) :
    headWeight func = 0 := by
  simp [headWeight, h]

private theorem weight_ofBool (p : Pos) (c : Bool) : (ofBool p c).weight = 2 := rfl

private theorem weight_foldName (names : FoldedNames) (p : Pos) (id : String) :
    (foldName names p id).weight = 2 := by
  unfold foldName
  split <;> rfl

/-! ## Positions do not weigh -/

mutual

private theorem weight_bareBy (f : Constant → Constant) : ∀ e : Expr, (e.bareBy f).weight = e.weight
  | boolOp p op values => by rw [bareBy, weight, weight, weightList_bareBy f values]
  | binary p left op right => by
    rw [bareBy, weight, weight, weight_bareBy f left, weight_bareBy f right]
  | unary p op operand => by rw [bareBy, weight, weight, weight_bareBy f operand]
  | compare p left ops comparators => by
    rw [bareBy, weight, weight, weight_bareBy f left, weightList_bareBy f comparators]
  | call p func args => by
    have hhead : headWeight (func.bareBy f) = headWeight func := by
      cases func <;> rfl
    rw [bareBy, weight, weight, hhead, weight_bareBy f func, weightList_bareBy f args]
  | member p value attr => by rw [bareBy, weight, weight, weight_bareBy f value]
  | subscript p value index => by
    rw [bareBy, weight, weight, weight_bareBy f value, weight_bareBy f index]
  | ifExp p test body orelse => by
    rw [bareBy, weight, weight, weight_bareBy f test, weight_bareBy f body, weight_bareBy f orelse]
  | name p id => by rw [bareBy, weight, weight]
  | const p c => by rw [bareBy, weight, weight]
  | tuple p elts => by rw [bareBy, weight, weight, weightList_bareBy f elts]
  | list p elts => by rw [bareBy, weight, weight, weightList_bareBy f elts]
  | slice p lower upper step => by
    rw [bareBy, weight, weight, weightOption_bareBy f lower, weightOption_bareBy f upper,
      weightOption_bareBy f step]

private theorem weightList_bareBy (f : Constant → Constant) : ∀ es : List Expr,
    weightList (bareListBy f es) = weightList es
  | [] => rfl
  | e :: es => by
    rw [bareListBy, weightList, weightList, weight_bareBy f e, weightList_bareBy f es]

private theorem weightOption_bareBy (f : Constant → Constant) : ∀ o : Option Expr,
    weightOption (bareOptionBy f o) = weightOption o
  | none => rfl
  | some e => by rw [bareOptionBy, weightOption, weightOption, weight_bareBy f e]

end

/-! ## Folding an expression -/

private theorem weightList_filter_le (p : Expr → Bool) (es : List Expr) :
    weightList (es.filter p) ≤ weightList es := by
  induction es with
  | nil => exact Nat.le_refl _
  | cons e es ih =>
    by_cases hp : p e = true
    · rw [List.filter_cons_of_pos hp, weightList, weightList]
      omega
    · rw [List.filter_cons_of_neg hp, weightList]
      omega

private theorem weight_foldBoolOp_le (p : Pos) (op : BoolOp) (values : List Expr) :
    (foldBoolOp p op values).weight ≤ 2 + weightList values := by
  have hlive := weightList_filter_le (fun v => v.bool?.isNone) values
  unfold foldBoolOp
  split
  · rw [weight_ofBool]
    omega
  · split
    · rw [weight_ofBool]
      omega
    · next v hone =>
      rw [hone, weightList, weightList] at hlive
      omega
    · rw [weight]
      omega

private theorem weight_foldNot_le (p : Pos) (operand : Expr) :
    (foldNot p operand).weight ≤ 2 + operand.weight := by
  unfold foldNot
  split
  · rw [weight_ofBool]
    omega
  · split
    · rw [weight]
      omega
    · exact Nat.le_refl _

private theorem weight_negated_le (e : Expr) : e.negated.weight ≤ 2 + e.weight := by
  unfold negated
  split
  · rw [weight]
    omega
  · exact Nat.le_refl _

private theorem weight_foldCompare_le (p : Pos) (left : Expr) (ops : List CmpOp)
    (comparators : List Expr) :
    (foldCompare p left ops comparators).weight ≤ 2 + (left.weight + weightList comparators) := by
  rcases foldCompare_eq p left ops comparators with ⟨_, c, hc⟩ | ⟨_, hkeep⟩
  · rw [hc, weight_ofBool]
    omega
  · exact Nat.le_of_eq (congrArg weight hkeep)

/-- What stands for the condition on a feature is lighter than it. -/
theorem weight_foldAlias_lt {b : Build} (names : FoldedNames) (p : Pos) {func : Expr}
    {args : List Expr} {ext : String} (h : b.aliasOfFeature? func args = some ext) :
    (foldAlias b names p ext args).weight <
      2 + (headWeight func + func.weight + weightList args) := by
  have hfunc : func.name? = some Predicate.isFeatureEnabled.name := by
    unfold Build.aliasOfFeature? at h
    split at h
    · next hname => exact hname
    · cases h
  have hargs : 2 ≤ weightList args := by
    cases args with
    | nil => simp [Build.aliasOfFeature?, hfunc, Build.argumentName?] at h
    | cons e es =>
      have := two_le_weight e
      rw [weightList]
      omega
  have hhead : headWeight func = 1 := by simp [headWeight, hfunc]
  have hweight := two_le_weight func
  unfold foldAlias
  split
  · have hext : headWeight (foldName names p Predicate.isExtEnabled.name) = 0 := by
      unfold foldName
      split <;> rfl
    rw [weight, hext, weight_foldName, weightList, weightList, weight_foldName]
    omega
  · rw [weight_ofBool]
    omega

/-- Only a name, or something heavier than a name, folds to a name. -/
theorem four_le_weight_of_fold {b : Build} {names : FoldedNames} {e : Expr}
    (h : e.name? = none) (hfold : (e.fold b names).name? ≠ none) : 4 ≤ e.weight := by
  cases e with
  | name p id => cases h
  | const p c => exact absurd rfl hfold
  | boolOp p op values =>
    cases values with
    | nil =>
      rw [fold, foldList, foldBoolOp] at hfold
      exact absurd rfl hfold
    | cons e es =>
      have := two_le_weight e
      rw [weight, weightList]
      omega
  | tuple p elts | list p elts => exact absurd rfl hfold
  | slice p l u s => exact absurd rfl hfold
  | binary p left op right =>
    have := two_le_weight left
    rw [weight]
    omega
  | unary p op operand =>
    have := two_le_weight operand
    rw [weight]
    omega
  | compare p left ops comparators =>
    have := two_le_weight left
    rw [weight]
    omega
  | call p func args =>
    have := two_le_weight func
    rw [weight]
    omega
  | member p value attr =>
    have := two_le_weight value
    rw [weight]
    omega
  | subscript p value index =>
    have := two_le_weight value
    rw [weight]
    omega
  | ifExp p test body orelse =>
    have := two_le_weight test
    rw [weight]
    omega

/-- What is called does not get heavier, and it gets lighter if it holds what the build decides. -/
private theorem weight_callee_le {b : Build} {names : FoldedNames} {func : Expr} {n : Nat}
    (hn : n ≤ 1) (h : (func.fold b names).weight + n ≤ func.weight) :
    headWeight (func.fold b names) + (func.fold b names).weight + n ≤
      headWeight func + func.weight := by
  cases hname : func.name? with
  | some id =>
    cases func with
    | name p x =>
      have hfold : headWeight ((name p x).fold b names) ≤ headWeight (name p x) := by
        rw [fold, foldName]
        split
        · exact Nat.zero_le _
        · exact Nat.le_refl _
      omega
    | _ => cases hname
  | none =>
    rw [headWeight_of_name?_eq_none hname]
    by_cases hfold : (func.fold b names).name? = none
    · rw [headWeight_of_name?_eq_none hfold]
      omega
    · have hheavy := four_le_weight_of_fold hname hfold
      have hhead := headWeight_le_one (func.fold b names)
      have hlight : (func.fold b names).weight = 2 := by
        generalize func.fold b names = e at hfold
        cases e with
        | name p id => rfl
        | _ => exact absurd rfl hfold
      omega

/-- One if an expression holds what a build decides, and nothing otherwise. -/
def unsettled (settled : Bool) : Nat := if settled then 0 else 1

private theorem unsettled_le_one (settled : Bool) : unsettled settled ≤ 1 := by
  cases settled <;> decide

private theorem unsettled_and_le (c d : Bool) : unsettled (c && d) ≤ unsettled c + unsettled d := by
  cases c <;> cases d <;> decide

mutual

/-- Folding makes no expression heavier, and it makes one lighter that holds what the build
decides. -/
theorem weight_fold_le (b : Build) (names : FoldedNames) : ∀ e : Expr,
    (e.fold b names).weight + unsettled (e.isSettled b) ≤ e.weight
  | name p id => by
    rw [fold, weight_foldName, isSettled]
    exact Nat.le_refl _
  | const p c => Nat.le_refl _
  | boolOp p op values => by
    have hvalues := weightList_fold_le b names values
    have hfold := weight_foldBoolOp_le p op (foldList b names values)
    rw [fold, isSettled, weight]
    omega
  | binary p left op right => by
    have hleft := weight_fold_le b names left
    have hright := weight_fold_le b names right
    have hsum := unsettled_and_le (left.isSettled b) (right.isSettled b)
    rw [fold, isSettled, weight, weight]
    omega
  | unary p op operand => by
    have hoperand := weight_fold_le b names operand
    have hfold := weight_foldNot_le p (operand.fold b names)
    rw [fold, isSettled, weight]
    split
    · omega
    · rw [weight]
      omega
  | compare p left ops comparators => by
    have hleft := weight_fold_le b names left
    have hright := weightList_fold_le b names comparators
    rw [fold, isSettled, weight]
    split
    · next c hc =>
      have hone := unsettled_le_one ((missingValue? b left ops comparators).isNone &&
        left.isSettled b && isSettledList b comparators)
      have := two_le_weight left
      rw [weight_ofBool]
      omega
    · next hc =>
      have hfold := weight_foldCompare_le p (left.fold b names) ops (foldList b names comparators)
      have hsum := unsettled_and_le (left.isSettled b) (isSettledList b comparators)
      rw [hc, Option.isNone_none, Bool.true_and]
      omega
  | call p func args => by
    have hargs := weightList_fold_le b names args
    have hfunc := weight_callee_le (unsettled_le_one _) (weight_fold_le b names func)
    have htwo := two_le_weight func
    rw [fold, isSettled, weight]
    split
    · next ext halias =>
      have hlight := weight_foldAlias_lt names p halias
      have hone := unsettled_le_one ((b.aliasOfFeature? func args).isNone &&
        (b.condition? func args).isNone && func.isSettled b && isSettledList b args)
      omega
    · next halias =>
      split
      · next c hc =>
        have hone := unsettled_le_one ((b.aliasOfFeature? func args).isNone &&
          (b.condition? func args).isNone && func.isSettled b && isSettledList b args)
        rw [weight_ofBool]
        omega
      · next hc =>
        have hsum := unsettled_and_le (func.isSettled b) (isSettledList b args)
        rw [halias, hc, Option.isNone_none, Option.isNone_none, Bool.and_self, Bool.true_and,
          weight]
        omega
  | member p value attr => by
    have hvalue := weight_fold_le b names value
    rw [fold, isSettled, weight, weight]
    omega
  | subscript p value index => by
    have hvalue := weight_fold_le b names value
    have hindex := weight_fold_le b names index
    have hsum := unsettled_and_le (value.isSettled b) (index.isSettled b)
    rw [fold, isSettled, weight, weight]
    omega
  | ifExp p test body orelse => by
    have htest := weight_fold_le b names test
    have hbody := weight_fold_le b names body
    have horelse := weight_fold_le b names orelse
    have hsum := unsettled_and_le (test.isSettled b && body.isSettled b) (orelse.isSettled b)
    have hsum' := unsettled_and_le (test.isSettled b) (body.isSettled b)
    rw [fold, isSettled, weight]
    split
    · omega
    · omega
    · rw [weight]
      omega
  | tuple p elts | list p elts | slice p l u s => Nat.le_refl _

private theorem weightList_fold_le (b : Build) (names : FoldedNames) : ∀ es : List Expr,
    weightList (foldList b names es) + unsettled (isSettledList b es) ≤ weightList es
  | [] => Nat.le_refl _
  | e :: es => by
    have he := weight_fold_le b names e
    have hes := weightList_fold_le b names es
    have hsum := unsettled_and_le (e.isSettled b) (isSettledList b es)
    rw [foldList, weightList, weightList, isSettledList]
    omega

end

end Expr

/-! ## Statements -/

namespace Stmt

open ValidUsage.Expr (unsettled unsettled_le_one unsettled_and_le)

mutual

/-- The weight of a statement. Comments weigh nothing. -/
def weight : Stmt → Nat
  | assign _ targets value => 4 + (Expr.weightList targets + value.weight)
  | update _ target _ value => 4 + (target.weight + value.weight)
  | ifElse _ test body orelse => 4 + (test.weight + weightBlock body + weightBlock orelse)
  | forEach _ target iter body orelse =>
    4 + (target.weight + iter.weight + weightBlock body + weightBlock orelse)
  | whileDo _ test body orelse => 4 + (test.weight + weightBlock body + weightBlock orelse)
  | expr p value => if (expr p value).isComment then 0 else 4 + value.weight
  | pass _ | breakOut _ | nextRound _ => 4

/-- The weight of the statements of a block. -/
def weightBlock : Block → Nat
  | [] => 0
  | s :: ss => weight s + weightBlock ss

end

private theorem weight_expr_le (p : Pos) (value : Expr) :
    (expr p value).weight ≤ 4 + value.weight := by
  rw [weight]
  split <;> omega

private theorem four_le_weight {s : Stmt} (h : s.isComment = false) : 4 ≤ s.weight := by
  cases s with
  | expr p value =>
    rw [weight, h]
    exact Nat.le_add_right 4 _
  | pass p | breakOut p | nextRound p => exact Nat.le_refl 4
  | _ => exact Nat.le_add_right 4 _

private theorem four_le_weightBlock {c : Block} (h : c.all isComment = false) :
    4 ≤ weightBlock c := by
  induction c with
  | nil => cases h
  | cons s ss ih =>
    rw [List.all_cons, Bool.and_eq_false_iff] at h
    rw [weightBlock]
    rcases h with hs | hss
    · have := four_le_weight hs
      omega
    · have := ih hss
      omega

private theorem weightBlock_append (c d : Block) :
    weightBlock (c ++ d) = weightBlock c + weightBlock d := by
  induction c with
  | nil => rw [List.nil_append, weightBlock, Nat.zero_add]
  | cons s ss ih => rw [List.cons_append, weightBlock, weightBlock, ih, Nat.add_assoc]

private theorem weightBlock_singleton (s : Stmt) : weightBlock [s] = s.weight := by
  rw [weightBlock, weightBlock, Nat.add_zero]

private theorem weightBlock_live_le (x : Folded) :
    weightBlock x.live.stmts ≤ weightBlock x.stmts := by
  rcases live_stmts x with hnil | ⟨hsame, _⟩
  · rw [hnil]
    exact Nat.zero_le _
  · exact Nat.le_of_eq (congrArg weightBlock hsame)

/-! ## Positions and comments do not weigh -/

private theorem isComment_bareBy (s : Stmt) :
    (s.bareBy Constant.unsigned).isComment = s.isComment := by
  cases s with
  | expr p value =>
    cases value with
    | call q func args =>
      cases func with
      | name r id =>
        cases args with
        | nil => rfl
        | cons arg rest =>
          cases rest with
          | nil =>
            cases arg with
            | const t c => cases c <;> rfl
            | _ => rfl
          | cons arg' rest' =>
            cases arg with
            | const t c => cases c <;> rfl
            | _ => rfl
      | _ => rfl
    | _ => rfl
  | _ => rfl

mutual

private theorem weight_bareBy : ∀ s : Stmt, (s.bareBy Constant.unsigned).weight = s.weight
  | assign p targets value => by
    rw [bareBy, weight, weight, Expr.weightList_bareBy, Expr.weight_bareBy]
  | update p target op value => by
    rw [bareBy, weight, weight, Expr.weight_bareBy, Expr.weight_bareBy]
  | ifElse p test body orelse => by
    rw [bareBy, weight, weight, Expr.weight_bareBy, weightBlock_bareBy body,
      weightBlock_bareBy orelse]
  | forEach p target iter body orelse => by
    rw [bareBy, weight, weight, Expr.weight_bareBy, Expr.weight_bareBy, weightBlock_bareBy body,
      weightBlock_bareBy orelse]
  | whileDo p test body orelse => by
    rw [bareBy, weight, weight, Expr.weight_bareBy, weightBlock_bareBy body,
      weightBlock_bareBy orelse]
  | expr p value => by
    have hcomment := isComment_bareBy (expr p value)
    rw [bareBy] at hcomment ⊢
    rw [weight, weight, hcomment, Expr.weight_bareBy]
  | pass p | breakOut p | nextRound p => by rw [bareBy, weight, weight]

private theorem weightBlock_bareBy : ∀ c : Block,
    weightBlock (bareBlockBy Constant.unsigned c) = weightBlock c
  | [] => rfl
  | s :: ss => by
    rw [bareBlockBy, weightBlock]
    split
    · next hcomment =>
      have hzero : s.weight = 0 := by
        cases s with
        | expr p value => rw [weight, if_pos hcomment]
        | _ => cases hcomment
      rw [weightBlock_bareBy ss, hzero, Nat.zero_add]
    · rw [weightBlock, weight_bareBy s, weightBlock_bareBy ss]

end

/-- Statements that are the same program weigh the same. -/
theorem weightBlock_of_isSame {c d : Block} (h : c.isSame d) : weightBlock c = weightBlock d := by
  rw [Block.isSame, beq_iff_eq] at h
  rw [← weightBlock_bareBy c, h, weightBlock_bareBy d]

/-! ## Folding a statement -/

private theorem firstArgument?_fold {b : Build} {names : FoldedNames} {value : Expr}
    (h : requiresTrue value) : firstArgument? (value.fold b names) = some true := by
  simp only [requiresTrue, Bool.and_eq_true, beq_iff_eq] at h
  obtain ⟨hcall, htrue⟩ := h
  cases value with
  | call p func args =>
    cases func with
    | name q id =>
      obtain rfl : id = Predicate.require.name := by simpa [Expr.callName?, Expr.name?] using hcall
      cases args with
      | nil => cases htrue
      | cons arg rest =>
        cases arg with
        | const r c =>
          have halias : b.aliasOfFeature? (.name q Predicate.require.name)
            (.const r c :: rest) = none := rfl
          have hcondition : b.condition? (.name q Predicate.require.name)
            (.const r c :: rest) = none := rfl
          simp only [Expr.fold, halias, hcondition, Expr.foldList]
          exact htrue
        | _ => cases htrue
    | _ => cases hcall
  | _ => cases hcall

private theorem weight_foldIf_le (p : Pos) (test : Expr) (body orelse : Folded) :
    weightBlock (foldIf p test body.live orelse.live).stmts ≤
      4 + (test.weight + weightBlock body.stmts + weightBlock orelse.stmts) ∨
    weightBlock (foldIf p test body.live orelse.live).stmts ≤
      4 + (2 + test.weight + weightBlock orelse.stmts) := by
  have hb := weightBlock_live_le body
  have ho := weightBlock_live_le orelse
  have hneg := Expr.weight_negated_le test
  unfold foldIf
  by_cases hbody : body.live.stmts = []
  · refine Or.inr ?_
    by_cases horelse : orelse.live.stmts = []
    · simp only [hbody, horelse, List.isEmpty_nil, if_true]
      exact Nat.zero_le _
    · simp only [hbody, List.isEmpty_nil, if_true, List.isEmpty_iff, horelse, if_false]
      rw [weightBlock_singleton, weight, weightBlock]
      omega
  · refine Or.inl ?_
    simp only [List.isEmpty_iff, hbody, if_false]
    rw [weightBlock_singleton, weight]
    omega

private theorem weight_fold_expr_le (b : Build) (names : FoldedNames) (p : Pos) (value : Expr) :
    weightBlock (fold b names (expr p value)).stmts + unsettled (isSettled b (expr p value)) ≤
      (expr p value).weight := by
  have hvalue := Expr.weight_fold_le b names value
  have hone := weight_expr_le p (value.fold b names)
  rw [fold, isSettled]
  by_cases hcomment : (expr p value).isComment = true
  · rw [if_pos hcomment, Folded.one, weightBlock_singleton, hcomment, Bool.true_or]
    exact Nat.le_refl _
  · rw [if_neg hcomment, weight, if_neg hcomment, Bool.eq_false_iff.mpr hcomment, Bool.false_or]
    by_cases htrue : requiresTrue value = true
    · have hcall : value.callName? = some Predicate.require.name := by
        simp only [requiresTrue, Bool.and_eq_true, beq_iff_eq] at htrue
        exact htrue.1
      have hgone := unsettled_le_one (value.isSettled b && !requiresTrue value)
      rw [if_pos hcall, foldRequire, firstArgument?_fold htrue, Folded.nothing, weightBlock]
      omega
    · rw [Bool.eq_false_iff.mpr htrue, Bool.not_false, Bool.and_true]
      split
      · unfold foldRequire
        split
        · rw [Folded.nothing, weightBlock]
          omega
        · rw [weightBlock_singleton]
          omega
        · rw [Folded.one, weightBlock_singleton]
          omega
      · rw [Folded.one, weightBlock_singleton]
        omega

mutual

/-- Folding makes no statement in folded form heavier, and it makes one lighter that holds what the
build decides. -/
theorem weight_fold_le (b : Build) : ∀ (s : Stmt) (names : FoldedNames), s.isNormal →
    weightBlock (fold b names s).stmts + unsettled (s.isSettled b) ≤ s.weight
  | assign p targets value, names, _ => by
    have hvalue := Expr.weight_fold_le b names value
    have hone := unsettled_le_one (value.isSettled b)
    rw [fold, isSettled, weight]
    split
    · rw [Folded.nothing, weightBlock]
      omega
    · rw [Folded.one, weightBlock_singleton, weight]
      omega
  | ifElse p test body orelse, names, hnormal => by
    simp only [isNormal, Bool.and_eq_true, Bool.not_eq_true'] at hnormal
    obtain ⟨⟨⟨⟨_, hmore⟩, _⟩, hnbody⟩, hnorelse⟩ := hnormal
    have htest := Expr.weight_fold_le b names test
    have hbody := weightBlock_fold_le b body names hnbody
    have horelse := weightBlock_fold_le b orelse names hnorelse
    have hfour := four_le_weightBlock hmore
    have hsum := unsettled_and_le (test.isSettled b && isSettledBlock b body)
      (isSettledBlock b orelse)
    have hsum' := unsettled_and_le (test.isSettled b) (isSettledBlock b body)
    rw [fold, isSettled, weight]
    split
    · have hlive := weightBlock_live_le (foldBlock b names body)
      omega
    · have hlive := weightBlock_live_le (foldBlock b names orelse)
      omega
    · rcases weight_foldIf_le p (test.fold b names) (foldBlock b names body)
        (foldBlock b names orelse) with hkept | hturned
      · omega
      · have hone := unsettled_le_one (isSettledBlock b body)
        omega
  | forEach p target iter body orelse, names, hnormal => by
    simp only [isNormal, Bool.and_eq_true] at hnormal
    have hiter := Expr.weight_fold_le b names iter
    have hbody := weightBlock_fold_le b body names hnormal.2
    have hlive := weightBlock_live_le (foldBlock b names body)
    have hsum := unsettled_and_le (iter.isSettled b) (isSettledBlock b body)
    rw [fold, isSettled, weight]
    simp only
    split
    · rw [weightBlock]
      omega
    · rw [weightBlock_singleton, weight]
      omega
  | expr p value, names, _ => weight_fold_expr_le b names p value
  | update p t o v, _, _ => Nat.le_refl _
  | whileDo p t c o, _, _ => Nat.le_refl _
  | pass p, _, _ | breakOut p, _, _ | nextRound p, _, _ => Nat.le_refl _

private theorem weightBlock_fold_le (b : Build) :
    ∀ (ss : Block) (names : FoldedNames), isNormalBlock ss →
    weightBlock (foldBlock b names ss).stmts + unsettled (isSettledBlock b ss) ≤ weightBlock ss
  | [], _, _ => Nat.le_refl _
  | s :: ss, names, hnormal => by
    rw [isNormalBlock, Bool.and_eq_true] at hnormal
    have hs := weight_fold_le b s names hnormal.1
    have hss := weightBlock_fold_le b ss (foldNames b names s) hnormal.2
    have hsum := unsettled_and_le (s.isSettled b) (isSettledBlock b ss)
    rw [foldBlock, Folded.append, weightBlock_append, weightBlock, isSettledBlock]
    omega

end

/-! ## Taking dead code away -/

private theorem weight_settleIf_le (p : Pos) (test : Expr) {body : Block} (orelse : Block)
    (c d : Bool) {n : Nat} (hfour : 4 ≤ n) (hbody : weightBlock body ≤ n) :
    ((settleIf p test (settle body c) (settle orelse d)).left.map weight).getD 0 ≤
      4 + (test.weight + n + weightBlock orelse) := by
  have hneg := Expr.weight_negated_le test
  rcases settle_left body c with hb | ⟨hb, _⟩
  · rcases settle_left orelse d with ho | ⟨ho, _⟩
    · simp [settleIf, hb, ho]
    · simp only [settleIf, hb, ho, Option.map_some, Option.getD_some, weight, weightBlock]
      omega
  · rcases settle_left orelse d with ho | ⟨ho, _⟩
    · simp only [settleIf, hb, ho, Option.map_some, Option.getD_some, Option.getD_none, weight,
        weightBlock]
      omega
    · simp only [settleIf, hb, ho, Option.map_some, Option.getD_some, weight]
      omega

mutual

/-- A round makes no statement in folded form heavier. -/
theorem weight_prune_le (unused : List String) : ∀ s : Stmt, s.isNormal →
    ((prune unused s).left.map weight).getD 0 ≤ s.weight
  | pass p, _ => Nat.zero_le _
  | ifElse p test body orelse, hnormal => by
    simp only [isNormal, Bool.and_eq_true, Bool.not_eq_true'] at hnormal
    obtain ⟨⟨⟨⟨_, hmore⟩, _⟩, hnbody⟩, hnorelse⟩ := hnormal
    have hbody := weightBlock_prune_le unused body hnbody
    have horelse := weightBlock_prune_le unused orelse hnorelse
    have hif := weight_settleIf_le p test (pruneStmts unused orelse).1 (pruneStmts unused body).2
      (pruneStmts unused orelse).2 (four_le_weightBlock hmore) hbody
    rw [prune, weight]
    omega
  | forEach p target iter body orelse, hnormal => by
    simp only [isNormal, Bool.and_eq_true] at hnormal
    have hbody := weightBlock_prune_le unused body hnormal.2
    rw [prune]
    rcases settle_left (pruneStmts unused body).1 (pruneStmts unused body).2 with
      hnone | ⟨hsome, _⟩
    · simp [hnone]
    · simp only [hsome, Option.map_some, Option.getD_some, weight]
      omega
  | assign p ts v, _ | expr p v, _ | update p t o v, _ | whileDo p t c o, _ | breakOut p, _
  | nextRound p, _ => by
    simp only [prune]
    split
    · exact Nat.zero_le _
    · exact Nat.le_refl _

private theorem weightBlock_prune_le (unused : List String) : ∀ ss : Block, isNormalBlock ss →
    weightBlock (pruneStmts unused ss).1 ≤ weightBlock ss
  | [], _ => Nat.le_refl _
  | s :: ss, hnormal => by
    rw [isNormalBlock, Bool.and_eq_true] at hnormal
    have hs := weight_prune_le unused s hnormal.1
    have hss := weightBlock_prune_le unused ss hnormal.2
    rw [pruneStmts, weightBlock]
    split
    · next s' hleft =>
      simp only [hleft, Option.map_some, Option.getD_some] at hs
      rw [weightBlock]
      omega
    · exact Nat.le_trans hss (Nat.le_add_left _ _)

end

end Stmt

namespace Block

open Stmt

/-- What is left without dead code is no heavier than the statement. -/
theorem weight_withoutDeadCode_le {b c : Block} (hnormal : isNormalBlock b)
    (h : b.withoutDeadCode = some c) : weightBlock c ≤ weightBlock b := by
  induction b using withoutDeadCode.induct with
  | case1 b changed hprune =>
    rw [withoutDeadCode, hprune] at h
    cases h
  | case2 b left hprune =>
    rw [withoutDeadCode, hprune] at h
    obtain rfl := Option.some.inj h
    have hle := weightBlock_prune_le b.unusedNames b hnormal
    rwa [(prune_eq_some hprune).1] at hle
  | case3 b left hprune ih =>
    rw [withoutDeadCode, hprune] at h
    have hle := weightBlock_prune_le b.unusedNames b hnormal
    have hleft := isNormalBlock_prune b.unusedNames b hnormal
    rw [(prune_eq_some hprune).1] at hle hleft
    exact Nat.le_trans (ih hleft h) hle

/-- A build leaves something lighter of what it left before, if that holds what the build
decides. -/
theorem weight_strip_lt {b c d : Block} {build : Build} (h : (b.strip build).block = some c)
    (hsettled : isSettledBlock build c = false) (hd : (c.strip build).block = some d) :
    weightBlock d < weightBlock c := by
  obtain ⟨hnormal, _, _⟩ := normal_of_strip h
  have hfold := weightBlock_fold_le build c .empty hnormal
  have hlive := weightBlock_live_le (foldBlock build .empty c)
  have hleft : weightBlock d ≤ weightBlock (c.fold build).stmts :=
    weight_withoutDeadCode_le (isNormalBlock_fold c build) hd
  rw [hsettled, Expr.unsettled, if_neg (by decide)] at hfold
  rw [fold] at hleft
  omega

end Block
end ValidUsage
