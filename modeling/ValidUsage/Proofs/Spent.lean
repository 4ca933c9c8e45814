import ValidUsage.Proofs.DefinedTypes
import ValidUsage.Proofs.FoldNodes
import ValidUsage.Proofs.RequirementUse
import ValidUsage.Proofs.StripAgain
import ValidUsage.Proofs.StripHolds

/-!
# Nothing that a build decides is left

Folding looks at the calls and comparisons of a statement as they are written. What it does then can
only bring a name to where a build would decide on it if a negation of a negation, a condition that
is left of several, or a chosen branch goes away. The first two give truth values, which no
predicate that refers to names takes; and a name whose value is a truth value is one of the
statement's own. So in an accepted statement without conditional expressions and macros, whose names
are not those of enumeration values, nothing is left that the build decides.
-/

namespace ValidUsage

namespace Expr

/-- Whether an expression joins or negates conditions. -/
def isConnective : Expr → Bool
  | boolOp .. | unary _ .not _ => true
  | _ => false

/-- An expression without the negations in front of it. -/
def unnegated : Expr → Expr
  | unary _ .not e => unnegated e
  | e => e

variable {b : Build} {names : FoldedNames} {e : Expr}

/-- What is no negation is what stands under its negations. -/
theorem unnegated_of_isNegation_eq_false (h : e.isNegation = false) : e.unnegated = e := by
  cases e with
  | unary p op operand => cases op <;> first | rfl | exact absurd h nofun
  | _ => rfl

/-! ## What folding leaves recognizable -/

/-- Whether an expression shows from outside what another does, as far as stripping goes by it. -/
structure LooksLike (e e' : Expr) : Prop where
  /-- It negates nothing. -/
  negation : e'.isNegation = false
  /-- It is the same name. -/
  name : e'.name? = e.name?
  /-- It is the same number. -/
  int : e'.int? = e.int?
  /-- It is a requirement if the other is one. -/
  require : e'.callName? = some Predicate.require.name → e.callName? = some Predicate.require.name

/-- What joins, negates and chooses nothing becomes a truth value or still looks alike, if what it
calls is a name or a member. -/
theorem looksLike_fold (b : Build) (names : FoldedNames) (hc : e.isConnective = false)
    (hi : e.isChoice = false)
    (hp : ∀ p func args, e = call p func args → func.isPath = true) :
    (∃ p v, e.fold b names = .ofBool p v) ∨ LooksLike e (e.fold b names) := by
  cases e with
  | boolOp p op values => simp [isConnective] at hc
  | ifExp p test body orelse => simp [isChoice] at hi
  | unary p op operand =>
    cases op with
    | not => simp [isConnective] at hc
    | _ => exact .inr ⟨rfl, rfl, rfl, (by rintro ⟨⟩)⟩
  | name p id =>
    rw [fold]
    rcases foldName_cases names p id with ⟨v, hv⟩ | hv
    · exact .inl ⟨p, v, hv⟩
    · rw [hv]
      exact .inr ⟨rfl, rfl, rfl, fun h => h⟩
  | compare p left ops comparators =>
    rw [fold]
    split
    · exact .inl ⟨p, _, rfl⟩
    · rcases foldCompare_eq p (fold b names left) ops (foldList b names comparators) with
        ⟨-, v, hv⟩ | ⟨-, hv⟩
      · exact .inl ⟨p, v, hv⟩
      · rw [hv]
        exact .inr ⟨rfl, rfl, rfl, (by rintro ⟨⟩)⟩
  | call p func args =>
    rw [fold]
    split
    · unfold foldAlias
      split
      · refine .inr ⟨rfl, rfl, rfl, fun h => ?_⟩
        rcases foldName_cases names p Predicate.isExtEnabled.name with ⟨v, hv⟩ | hv
        · rw [hv] at h
          cases h
        · rw [hv] at h
          exact absurd (Option.some.inj h) (by decide)
      · exact .inl ⟨p, false, rfl⟩
    split
    · exact .inl ⟨p, _, rfl⟩
    · refine .inr ⟨rfl, rfl, rfl, fun h => ?_⟩
      have hpath := hp p func args rfl
      cases func with
      | name q id =>
        rw [fold] at h
        rcases foldName_cases names q id with ⟨v, hv⟩ | hv
        · rw [hv] at h
          cases h
        · rwa [hv] at h
      | member q value attr => cases h
      | _ => simp [isPath] at hpath
  | _ => exact .inr ⟨rfl, rfl, rfl, (by rintro ⟨⟩)⟩

/-- Folding negations keeps what is negated, unless it becomes a truth value. -/
theorem unnegated_foldNot (p : Pos) (operand : Expr) :
    (∃ v, foldNot p operand = .ofBool p v) ∨ (foldNot p operand).unnegated = operand.unnegated := by
  unfold foldNot
  split
  · exact .inl ⟨_, rfl⟩
  · split
    · exact .inr rfl
    · exact .inr rfl

/-! ## Folding stays in the language -/

/-- Whether an expression is of a form that the language has depends on what folding keeps. -/
theorem foldsNodes_isInLanguage (b : Build) : FoldsNodes b fun e => e.isInLanguage = true where
  literal _ _ := rfl
  asked _ := rfl
  extension _ _ _ _ := rfl
  boolOp _ _ _ _ := rfl
  unary _ _ _ := rfl
  call _ _ _ := rfl
  subscript _ _ _ := rfl
  ifExp _ _ _ _ := rfl
  binary _ _ _ := rfl
  compare _ _ hlen h := by simpa only [isInLanguage, hlen] using h
  member _ _ := rfl

/-- Every part of an expression of the language is in folded form and holds nothing that a build
decides if the whole is so. -/
theorem forall_mem_walk_isSettled (h : ∀ x ∈ e.walk, x.isInLanguage = true)
    (hn : e.isNormal = true) (hs : e.isSettled b = true) :
    ∀ x ∈ e.walk, x.isNormal = true ∧ x.isSettled b = true := by
  have list {es : List Expr} (ih : ∀ e ∈ es, (∀ x ∈ e.walk, x.isInLanguage = true) →
      e.isNormal = true → e.isSettled b = true →
        ∀ x ∈ e.walk, x.isNormal = true ∧ x.isSettled b = true)
      (h : ∀ x ∈ walkList es, x.isInLanguage = true) (hn : isNormalList es = true)
      (hs : isSettledList b es = true) :
      ∀ x ∈ walkList es, x.isNormal = true ∧ x.isSettled b = true := by
    intro x hx
    obtain ⟨e, he, hx⟩ := mem_walkList.1 hx
    exact ih e he (fun z hz => h z (mem_walkList.2 ⟨e, he, hz⟩)) (isNormalList_iff.1 hn e he)
      (isSettledList_iff.1 hs e he) x hx
  induction e using Expr.partsInduction with
  | boolOp p op values ih =>
    have hself := And.intro hn hs
    simp only [walk, List.forall_mem_cons] at h ⊢
    simp only [isNormal, isSettled, Bool.and_eq_true] at hn hs
    exact ⟨hself, list ih h.2 hn.1.1 hs⟩
  | binary p left op right ihl ihr | subscript p left right ihl ihr =>
    have hself := And.intro hn hs
    simp only [walk, List.forall_mem_cons, List.forall_mem_append] at h ⊢
    simp only [isNormal, isSettled, Bool.and_eq_true] at hn hs
    exact ⟨hself, ihl h.2.1 hn.1 hs.1, ihr h.2.2 hn.2 hs.2⟩
  | unary p op operand ih =>
    have hself := And.intro hn hs
    simp only [walk, List.forall_mem_cons] at h ⊢
    simp only [isNormal, isSettled, Bool.and_eq_true] at hn hs
    exact ⟨hself, ih h.2 hn.1 hs⟩
  | compare p left ops comparators ihl ihr =>
    have hself := And.intro hn hs
    simp only [walk, List.forall_mem_cons, List.forall_mem_append] at h ⊢
    simp only [isNormal, isSettled, Bool.and_eq_true] at hn hs
    exact ⟨hself, ihl h.2.1 hn.1.1 hs.1.2, list ihr h.2.2 hn.1.2 hs.2⟩
  | call p func args ihf iha =>
    have hself := And.intro hn hs
    simp only [walk, List.forall_mem_cons, List.forall_mem_append] at h ⊢
    simp only [isNormal, isSettled, Bool.and_eq_true] at hn hs
    exact ⟨hself, ihf h.2.1 hn.1 hs.1.2, list iha h.2.2 hn.2 hs.2⟩
  | member p value attr ih =>
    have hself := And.intro hn hs
    simp only [walk, List.forall_mem_cons] at h ⊢
    exact ⟨hself, ih h.2 hn hs⟩
  | ifExp p test body orelse iht ihb iho =>
    have hself := And.intro hn hs
    simp only [walk, List.forall_mem_cons, List.forall_mem_append] at h ⊢
    simp only [isNormal, isSettled, Bool.and_eq_true] at hn hs
    exact ⟨hself, iht h.2.1 hn.1.1.1 hs.1.1, ihb h.2.2.1 hn.1.1.2 hs.1.2, iho h.2.2.2 hn.1.2 hs.2⟩
  | name | const => simp [walk, isNormal, isSettled]
  | tuple | list | slice => simp [walk, isInLanguage] at h

end Expr

/-! ## What holds nothing that a build decides -/

namespace Expr

variable {b : Build} {names : FoldedNames} {e : Expr}

private theorem isSettled_foldName (p : Pos) (id : String) :
    (foldName names p id).isSettled b = true := by
  rcases foldName_cases names p id with ⟨v, hv⟩ | hv
  · rw [hv]
    rfl
  · rw [hv]
    rfl

private theorem isSettled_foldAlias (p : Pos) (ext : String) (args : List Expr) :
    (foldAlias b names p ext args).isSettled b = true := by
  unfold foldAlias
  split
  · rename_i hext
    simp only [isSettled, isSettledList, isSettled_foldName, Bool.and_true, Bool.and_eq_true,
      Option.isNone_iff_eq_none]
    rcases foldName_cases names p Predicate.isExtEnabled.name with ⟨v, hv⟩ | hv
    · rw [hv]
      exact ⟨rfl, rfl⟩
    · rw [hv]
      refine ⟨rfl, ?_⟩
      have hid : Predicate.ofName? Predicate.isExtEnabled.name = some .isExtEnabled :=
        Predicate.ofName?_name _
      rcases foldName_cases names ((args.head?.map Expr.pos).getD p) ext with ⟨v, hv⟩ | hv
      · simp [hv, Build.condition?, hid, Build.callCondition?, Build.argumentName?, ofBool, name?]
      · simp [hv, Build.condition?, hid, Build.callCondition?, Build.argumentName?, name?, hext]
  · rfl

private theorem isSettled_foldBoolOp {p : Pos} {op : BoolOp} {values : List Expr}
    (h : ∀ v ∈ values, v.isSettled b = true) : (foldBoolOp p op values).isSettled b = true := by
  rcases foldBoolOp_cases p op values with ⟨v, hv⟩ | hv | ⟨live, hlive, -, hv⟩
  · rw [hv]
    rfl
  · exact h _ hv
  · rw [hv, isSettled]
    exact isSettledList_iff.2 fun v hv => h v (hlive hv)

private theorem isSettled_foldNot {p : Pos} (h : e.isSettled b = true) :
    (foldNot p e).isSettled b = true := by
  unfold foldNot
  split
  · rfl
  split
  · exact h
  · exact h

/-- Folding the sides of a comparison keeps it undecided if none of them becomes a value that the
build lacks. -/
theorem missingValue?_fold {left : Expr} {ops : List CmpOp} {comparators : List Expr}
    (h : ∀ x ∈ left :: comparators, b.lacksValue x = false →
      b.lacksValue (x.fold b names) = false)
    (hm : missingValue? b left ops comparators = none) :
    missingValue? b (left.fold b names) ops (foldList b names comparators) = none := by
  have hsides (right : Expr) (hr : right ∈ left :: comparators) {v : Bool}
      (hv : (if (b.lacksValue left || b.lacksValue right) = true then some v else none) = none) :
      (if (b.lacksValue (left.fold b names) || b.lacksValue (right.fold b names)) = true
        then some v else none) = none := by
    simp only [Bool.or_eq_true, ite_eq_right_iff, reduceCtorEq, imp_false, not_or,
      Bool.not_eq_true] at hv ⊢
    exact ⟨h left List.mem_cons_self hv.1, h right hr hv.2⟩
  rcases ops with _ | ⟨op, _ | ⟨op', ops⟩⟩
  · rfl
  · rcases comparators with _ | ⟨right, _ | ⟨right', rest⟩⟩
    · cases op <;> rfl
    · have hr : right ∈ left :: [right] := by simp
      cases op with
      | eq | notEq => exact hsides right hr hm
      | _ => rfl
    · cases op <;> rfl
  · cases op <;> rfl

private theorem isSettled_negated (h : e.isSettled b = true) : e.negated.isSettled b = true := by
  unfold negated
  split
  · exact h
  · exact h

end Expr

/-! ## What a build decides in a call -/

namespace Build

variable {b : Build} {args args' : List Expr}

/-- A build decides nothing in a call that it did not decide with other arguments, if a name or
numbers that it would decide by were there already. -/
theorem undecided_of_args {func : Expr}
    (hname : func.refersByName = true → ∀ id, argumentName? args' = some id →
      argumentName? args = some id)
    (hint : func.name? = some Predicate.isVersion.name → ∀ major minor m n,
      args' = [major, minor] → major.int? = some m → minor.int? = some n →
        ∃ major' minor', args = [major', minor'] ∧ major'.int? = some m ∧ minor'.int? = some n)
    (ha : b.aliasOfFeature? func args = none) (hc : b.condition? func args = none) :
    b.aliasOfFeature? func args' = none ∧ b.condition? func args' = none := by
  cases func with
  | name p id =>
    cases hid : Predicate.ofName? id with
    | none =>
      have hne : id ≠ Predicate.isFeatureEnabled.name := by
        rintro rfl
        exact absurd hid (by decide)
      exact ⟨by simp [aliasOfFeature?, Expr.name?, hne], by simp [condition?, hid]⟩
    | some q =>
      obtain rfl := Predicate.name_of_ofName? hid
      simp only [condition?, hid, Option.bind_eq_bind, Option.bind_some] at hc ⊢
      cases q with
      | isVersion =>
        refine ⟨by simp [aliasOfFeature?, Expr.name?, Predicate.name], ?_⟩
        cases hv : b.callCondition? .isVersion args' with
        | none => rfl
        | some v =>
          simp only [callCondition?] at hv
          split at hv
          · rename_i major minor
            obtain ⟨m, hm, hv⟩ := Option.bind_eq_some_iff.1 hv
            obtain ⟨n, hn, -⟩ := Option.bind_eq_some_iff.1 hv
            obtain ⟨major', minor', rfl, hm', hn'⟩ := hint rfl major minor m n rfl hm hn
            simp [callCondition?, hm', hn'] at hc
          · cases hv
      | isExtEnabled | hasPnext =>
        refine ⟨by simp [aliasOfFeature?, Expr.name?, Predicate.name], ?_⟩
        cases hn : argumentName? args' with
        | none => simp [callCondition?, hn]
        | some id => simpa [callCondition?, hn, hname rfl id hn] using hc
      | isFeatureEnabled =>
        cases hn : argumentName? args' with
        | none => simp [aliasOfFeature?, callCondition?, hn]
        | some id =>
          have hsame := hname rfl id hn
          exact ⟨by simpa [aliasOfFeature?, hn, hsame] using ha,
            by simpa [callCondition?, hn, hsame] using hc⟩
      | _ => exact ⟨by simp [aliasOfFeature?, Expr.name?, Predicate.name], rfl⟩
  | member p value attr =>
    refine ⟨by simp [aliasOfFeature?, Expr.name?], ?_⟩
    cases hid : Method.ofName? attr with
    | none => simp [condition?, hid]
    | some m =>
      obtain rfl := Method.name_of_ofName? hid
      simp only [condition?, hid, Option.bind_eq_bind, Option.bind_some] at hc ⊢
      cases m with
      | hasPnext | hasBit =>
        cases hn : argumentName? args' with
        | none => simp [methodCondition?, hn]
        | some id => simpa [methodCondition?, hn, hname rfl id hn] using hc
      | _ => rfl
  | _ => exact ⟨by simp [aliasOfFeature?, Expr.name?], rfl⟩

end Build

/-! ## Truth values in accepted expressions -/

/-- Whether a value of a type passes as a condition. -/
def Ty.IsTruth (t : Ty) : Prop := t.isUnknown = true ∨ t.cls = .bool

instance (t : Ty) : Decidable t.IsTruth := inferInstanceAs (Decidable (_ ∨ _))

namespace Verification

variable {s : Subject} {scope : Scope} {build : Build} {names : FoldedNames} {e : Expr}

private theorem isTruth_of_judgeCondition {context : String} {t : Ty}
    (h : (judgeCondition context e t).issues = []) : t.IsTruth := by
  unfold judgeCondition at h
  split at h
  · rename_i hu
    exact .inl hu
  split at h
  · simp at h
  · exact .inr (by simpa using h)

private theorem isTruth_of_typeOfUnary {t : Ty} (h : (typeOfUnary .not e t).issues = []) :
    t.IsTruth := by
  unfold typeOfUnary at h
  split at h
  · rename_i hu
    exact .inl hu
  split at h
  · simp at h
  split at h
  · simp at h
  · rename_i hc
    exact .inr (by simpa [UnaryOp.operandClass] using hc)

/-- What joins or negates conditions is a truth value. -/
theorem value_of_isConnective (h : e.isConnective = true) :
    (checkExpr s scope e).value = .bool := by
  cases e with
  | boolOp => rfl
  | unary p op operand =>
    cases op with
    | not =>
      simp only [checkExpr, Checked.value_typed, Checked.value_bind]
      unfold typeOfUnary
      split
      · rfl
      split
      · rfl
      split
      · rfl
      · rfl
    | _ => simp [Expr.isConnective] at h
  | _ => simp [Expr.isConnective] at h

/-- What is declared with another class than that of truth values is nothing that joins or negates
conditions. -/
theorem not_isConnective_of_accepts {d : Ty} (hd : d.cls ≠ .void) (hb : d.cls ≠ .bool)
    (h : (checkExpr s scope e).value.isUnknown = true ∨
      s.registry.accepts d (checkExpr s scope e).value = true) : e.isConnective = false := by
  cases hc : e.isConnective with
  | false => rfl
  | true =>
    rw [value_of_isConnective hc] at h
    rcases h with h | h
    · exact absurd h (by decide)
    · have hcovers := covers_of_accepts hd h
      simp [TyClass.covers, Ty.bool, Ne.symm hb, Registry.isFlags] at hcovers

/-- A name whose value is a truth value is one of the statement's own. -/
theorem binds_of_isTruth (hr : s.registry.IsNamed) {p : Pos} {id : String}
    (hc : (checkExpr s scope (.name p id)).issues = [])
    (ht : (checkExpr s scope (.name p id)).value.IsTruth) : scope.binds id = true := by
  cases hb : scope.binds id with
  | true => rfl
  | false =>
    obtain ⟨htold, hbool⟩ := Subject.isTold_nameType? hr (value_name hb hc)
    rcases ht with hu | hcls
    · exact absurd (hu.symm.trans htold.isUnknown) (by decide)
    · exact absurd hcls hbool

/-- What is called without an issue is a path. -/
theorem isPath_of_clean {p : Pos} {func : Expr} {args : List Expr}
    (hc : (checkExpr s scope (.call p func args)).issues = []) : func.isPath = true := by
  cases func with
  | name | member => rfl
  | _ => simp [checkExpr] at hc

/-! ## What folding leaves of an accepted expression -/

/-- What folding leaves under negations is joined of several conditions, or it is what folding makes
of the expression itself, or of a part whose value is a truth value. -/
theorem unnegated_fold (build : Build) (names : FoldedNames) {e : Expr} (hf : IsFree scope)
    (hc : (checkExpr s scope e).issues = [])
    (hl : ∀ x ∈ e.walk, x.isChoice = false) :
    ((e.fold build names).unnegated.name? = none ∧
      (e.fold build names).unnegated.callName? = none) ∨
      ∃ leaf, (checkExpr s scope leaf).issues = [] ∧ leaf.isConnective = false ∧
        leaf.isChoice = false ∧ (e.fold build names).unnegated = leaf.fold build names ∧
        (leaf = e ∨ (checkExpr s scope leaf).value.IsTruth) := by
  have ofPart {q : Role × Expr} (hq : q ∈ e.parts)
      (hv : (checkExpr s scope q.2).value.IsTruth) :
      ((q.2.fold build names).unnegated.name? = none ∧
        (q.2.fold build names).unnegated.callName? = none) ∨
        ∃ leaf, (checkExpr s scope leaf).issues = [] ∧ leaf.isConnective = false ∧
          leaf.isChoice = false ∧ (q.2.fold build names).unnegated = leaf.fold build names ∧
          (leaf = e ∨ (checkExpr s scope leaf).value.IsTruth) := by
    have := Expr.sizeOf_lt_of_mem_parts hq
    have hqc := (acceptsWithin_parts hf hc (List.Subset.refl _) q hq).clean
    rcases unnegated_fold build names hf hqc fun x hx =>
        hl x (Expr.walk_subset_of_mem_parts hq hx) with h | ⟨leaf, hlc, hcon, hch, hcore, hleaf⟩
    · exact .inl h
    · refine .inr ⟨leaf, hlc, hcon, hch, hcore, .inr ?_⟩
      rcases hleaf with rfl | ht
      · exact hv
      · exact ht
  cases hcon : e.isConnective with
  | false =>
    have hch := hl e (Expr.self_mem_walk e)
    refine .inr ⟨e, hc, hcon, hch, ?_, .inl rfl⟩
    rcases Expr.looksLike_fold build names hcon hch
      (fun p func args he => isPath_of_clean (he ▸ hc)) with ⟨p, v, hv⟩ | hlook
    · rw [hv]
      rfl
    · exact Expr.unnegated_of_isNegation_eq_false hlook.negation
  | true =>
    cases e with
    | boolOp p op values =>
      rw [Expr.fold]
      rcases Expr.foldBoolOp_cases p op (Expr.foldList build names values) with
        ⟨v, hv⟩ | hv | ⟨live, -, -, hv⟩
      · exact .inl (by simp [hv, Expr.ofBool, Expr.unnegated, Expr.name?, Expr.callName?])
      · rw [Expr.foldList_eq_map] at hv
        obtain ⟨x, hx, he⟩ := List.mem_map.1 hv
        rw [Expr.foldList_eq_map, ← he]
        simp only [checkExpr, Checked.issues_typed, Checked.issues_bind, Checked.issues_pure,
          List.append_nil] at hc
        exact ofPart (q := (.condition, x)) (List.mem_map_of_mem hx)
          (isTruth_of_judgeCondition (clean_of_checkConditions hc hx).2)
      · exact .inl (by simp [hv, Expr.unnegated, Expr.name?, Expr.callName?])
    | unary p op operand =>
      cases op with
      | not =>
        simp only [checkExpr, Checked.issues_typed, Checked.issues_bind,
          List.append_eq_nil_iff] at hc
        have hpart := ofPart (q := (.operand, operand)) (by simp [Expr.parts])
          (isTruth_of_typeOfUnary hc.2)
        rw [Expr.fold, if_pos rfl]
        rcases Expr.unnegated_foldNot p (operand.fold build names) with ⟨v, hv⟩ | hv
        · exact .inl (by simp [hv, Expr.ofBool, Expr.unnegated, Expr.name?, Expr.callName?])
        · rw [hv]
          exact hpart
      | _ => simp [Expr.isConnective] at hcon
    | _ => simp [Expr.isConnective] at hcon
termination_by sizeOf e

/-- What folding makes of an accepted expression, if that is a name or a call, looks like the
expression itself, or like a part whose value is a truth value. -/
theorem looksLike_of_fold (hf : IsFree scope) (hc : (checkExpr s scope e).issues = [])
    (hl : ∀ x ∈ e.walk, x.isChoice = false)
    (h : (e.fold build names).name? ≠ none ∨ (e.fold build names).callName? ≠ none) :
    ∃ leaf, (checkExpr s scope leaf).issues = [] ∧ Expr.LooksLike leaf (e.fold build names) ∧
      (leaf = e ∨ (checkExpr s scope leaf).value.IsTruth) := by
  have hcore : (e.fold build names).unnegated = e.fold build names := by
    apply Expr.unnegated_of_isNegation_eq_false
    cases hfold : e.fold build names with
    | name | call => rfl
    | _ => simp [hfold, Expr.name?, Expr.callName?] at h
  rcases unnegated_fold build names hf hc hl with
    ⟨hname, hcall⟩ | ⟨leaf, hlc, hcon, hch, he, hleaf⟩
  · rw [hcore] at hname hcall
    simp [hname, hcall] at h
  · rw [hcore] at he
    rcases Expr.looksLike_fold build names hcon hch
      (fun p func args he => isPath_of_clean (he ▸ hlc)) with ⟨p, v, hv⟩ | hlook
    · simp [he, hv, Expr.ofBool, Expr.name?, Expr.callName?] at h
    · exact ⟨leaf, hlc, he ▸ hlook, hleaf⟩

/-- What folding makes of an accepted expression is a name only if the expression is the name
already, or if the name is one of the statement's own. -/
theorem name?_of_fold (hr : s.registry.IsNamed) (hf : IsFree scope)
    (hc : (checkExpr s scope e).issues = []) (hl : ∀ x ∈ e.walk, x.isChoice = false) {id : String}
    (h : (e.fold build names).name? = some id) : e.name? = some id ∨ scope.binds id = true := by
  obtain ⟨leaf, hlc, hlook, hleaf⟩ := looksLike_of_fold hf hc hl
    (.inl fun hn => absurd (hn.symm.trans h) nofun)
  rw [hlook.name] at h
  rcases hleaf with rfl | ht
  · exact .inl h
  · cases leaf with
    | name p id' =>
      obtain rfl := Option.some.inj h
      exact .inr (binds_of_isTruth hr hlc ht)
    | _ => exact absurd h nofun

/-- What folding makes of an accepted expression is a requirement only if the expression is one. -/
theorem require_of_fold (hf : IsFree scope) (hc : (checkExpr s scope e).issues = [])
    (hl : ∀ x ∈ e.walk, x.isChoice = false) (h : IsRequirement (e.fold build names)) :
    IsRequirement e := by
  obtain ⟨leaf, hlc, hlook, hleaf⟩ := looksLike_of_fold hf hc hl
    (.inr fun hn => absurd (hn.symm.trans h) nofun)
  have hreq := hlook.require h
  rcases hleaf with rfl | ht
  · exact hreq
  · rw [value_requirement hreq hlc] at ht
    exact absurd ht (by decide)

/-- The name of what folding makes of an argument that refers by name, or its number, was there. -/
theorem argument_of_fold {d : Ty} (hd : d.cls ≠ .void) (hb : d.cls ≠ .bool)
    (hc : (checkExpr s scope e).issues = []) (hl : e.isChoice = false)
    (h : (checkExpr s scope e).value.isUnknown = true ∨
      s.registry.accepts d (checkExpr s scope e).value = true) :
    (∀ id, (e.fold build names).name? = some id → e.name? = some id) ∧
      ∀ n, (e.fold build names).int? = some n → e.int? = some n := by
  rcases Expr.looksLike_fold build names (not_isConnective_of_accepts hd hb h) hl
    (fun p func args he => isPath_of_clean (he ▸ hc)) with ⟨p, v, hv⟩ | hlook
  · rw [hv]
    exact ⟨nofun, nofun⟩
  · exact ⟨fun id hid => hlook.name ▸ hid, fun n hn => hlook.int ▸ hn⟩

/-- In an accepted call that a build does not decide, the build decides nothing after its parts were
folded. -/
theorem undecided_fold (names : FoldedNames) {p : Pos} {func : Expr} {args : List Expr}
    (hc : (checkExpr s scope (.call p func args)).issues = [])
    (hl : ∀ e ∈ args, e.isChoice = false) (ha : build.aliasOfFeature? func args = none)
    (hcond : build.condition? func args = none) :
    build.aliasOfFeature? (func.fold build names) (Expr.foldList build names args) = none ∧
      build.condition? (func.fold build names) (Expr.foldList build names args) = none := by
  have hargs : build.aliasOfFeature? func (Expr.foldList build names args) = none ∧
      build.condition? func (Expr.foldList build names args) = none := by
    apply Build.undecided_of_args _ _ ha hcond
    · intro hrefers id hid
      obtain ⟨d, -, hd, hb, haccept⟩ := accepted_arguments hrefers hc
      cases args with
      | nil => cases hid
      | cons e es =>
        obtain ⟨hec, hj⟩ := haccept e List.mem_cons_self
        exact (argument_of_fold hd hb hec (hl e List.mem_cons_self) hj).1 id hid
    · rintro hversion major minor m n heq hm hn
      cases func with
      | name q id =>
        obtain rfl := Option.some.inj hversion
        obtain ⟨pred, hid, hlen, -, hchecked⟩ := clean_call_name hc
        obtain rfl : pred = .isVersion := by simpa [Predicate.ofName?_name] using hid.symm
        rw [Expr.foldList_eq_map] at heq
        obtain ⟨major', rest, rfl, rfl, hrest⟩ := List.map_eq_cons_iff.1 heq
        obtain ⟨minor', rest', rfl, rfl, hnil⟩ := List.map_eq_cons_iff.1 hrest
        obtain rfl := List.map_eq_nil_iff.1 hnil
        have hint {e : Expr} (he : e ∈ [major', minor']) (k : Nat)
            (hk : (e.fold build names).int? = some k) : e.int? = some k := by
          obtain ⟨hec, d, hd, hj⟩ :=
            clean_of_checkArguments (hchecked (by rintro ⟨⟩) (by rintro ⟨⟩)).1 hlen he
          obtain rfl : d = .num := by simpa [Predicate.signature] using hd
          exact (argument_of_fold (by decide) (by decide) hec (hl e he) hj).2 k hk
        exact ⟨major', minor', rfl, hint (by simp) m hm, hint (by simp) n hn⟩
      | _ => cases hversion
  cases func with
  | name q id =>
    rw [Expr.fold]
    rcases Expr.foldName_cases names q id with ⟨v, hv⟩ | hv
    · rw [hv]
      exact ⟨rfl, rfl⟩
    · rw [hv]
      exact hargs
  | member q value attr => exact hargs
  | _ => simp [checkExpr] at hc

/-- A value that the build lacks was compared already before folding, if none of the statement's own
names is tracked as an enumeration value. -/
theorem lacksValue_of_fold (hr : s.registry.IsNamed) (hf : IsFree scope)
    (hU : ∀ b ∈ scope, build.availability.isEnumValue b.name = false)
    (hc : (checkExpr s scope e).issues = []) (hl : ∀ x ∈ e.walk, x.isChoice = false)
    (h : build.lacksValue (e.fold build names) = true) : build.lacksValue e = true := by
  obtain ⟨id, hid, hlacks⟩ := Option.any_eq_true _ _ |>.1 h
  rcases name?_of_fold hr hf hc hl hid with hname | hbinds
  · simpa [Build.lacksValue, hname] using hlacks
  · obtain ⟨b, hb⟩ := Option.isSome_iff_exists.1 hbinds
    have hbid : b.name = id := by simpa using List.find?_some hb
    have huntracked := hU b (List.mem_of_find?_eq_some hb)
    simp [← hbid, huntracked] at hlacks

/-- Folding an accepted expression without choices and macros leaves nothing that the build decides.
-/
theorem isSettled_fold {e : Expr} (hr : s.registry.IsNamed) (hf : IsFree scope)
    (hU : ∀ b ∈ scope, build.availability.isEnumValue b.name = false)
    (hc : (checkExpr s scope e).issues = []) (hl : ∀ x ∈ e.walk, x.isChoice = false)
    (hm : ∀ x ∈ e.walk, x.callName? ≠ some Predicate.textMacro.name) :
    (e.fold build names).isSettled build = true := by
  have ih {q : Role × Expr} (hq : q ∈ e.parts) : (q.2.fold build names).isSettled build = true := by
    have := Expr.sizeOf_lt_of_mem_parts hq
    have hsub := Expr.walk_subset_of_mem_parts hq
    exact isSettled_fold hr hf hU (acceptsWithin_parts hf hc (List.Subset.refl _) q hq).clean
      (fun x hx => hl x (hsub hx)) fun x hx => hm x (hsub hx)
  have list (role : Role) {es : List Expr} (h : ∀ x ∈ es, (role, x) ∈ e.parts) :
      Expr.isSettledList build (Expr.foldList build names es) = true := by
    rw [Expr.foldList_eq_map, Expr.isSettledList_iff]
    intro y hy
    obtain ⟨x, hx, rfl⟩ := List.mem_map.1 hy
    exact ih (h x hx)
  cases e with
  | boolOp p op values =>
    rw [Expr.fold]
    exact Expr.isSettled_foldBoolOp (Expr.isSettledList_iff.1
      (list .condition fun x hx => List.mem_map_of_mem hx))
  | binary p left op right =>
    simp only [Expr.fold, Expr.isSettled, Bool.and_eq_true]
    exact ⟨ih (q := (.operand, left)) (by simp [Expr.parts]),
      ih (q := (.operand, right)) (by simp [Expr.parts])⟩
  | unary p op operand =>
    have hoperand := ih (q := (.operand, operand)) (by simp [Expr.parts])
    rw [Expr.fold]
    split
    · exact Expr.isSettled_foldNot hoperand
    · exact hoperand
  | compare p left ops comparators =>
    have hleft := ih (q := (.ofComparison ops, left)) (by simp [Expr.parts])
    have hright : Expr.isSettledList build (Expr.foldList build names comparators) = true :=
      list (.ofComparison ops) fun x hx => List.mem_map_of_mem (List.mem_cons_of_mem _ hx)
    have hparts := acceptsWithin_parts hf hc (List.Subset.refl _)
    have hlacks {x : Expr} (hx : x ∈ left :: comparators) (h : build.lacksValue x = false) :
        build.lacksValue (x.fold build names) = false := by
      have hq : (Role.ofComparison ops, x) ∈ (Expr.compare p left ops comparators).parts :=
        List.mem_map_of_mem hx
      have hsub := Expr.walk_subset_of_mem_parts hq
      cases hv : build.lacksValue (x.fold build names) with
      | false => rfl
      | true =>
        have := lacksValue_of_fold hr hf hU (hparts _ hq).clean (fun y hy => hl y (hsub hy)) hv
        exact absurd (this.symm.trans h) (by decide)
    rw [Expr.fold]
    split
    · rfl
    rename_i hmissing
    rcases Expr.foldCompare_eq p (left.fold build names) ops (Expr.foldList build names comparators)
      with ⟨-, v, hv⟩ | ⟨-, hv⟩
    · rw [hv]
      rfl
    · rw [hv]
      simp only [Expr.isSettled, hleft, hright, Bool.and_true, Option.isNone_iff_eq_none]
      exact Expr.missingValue?_fold (fun x hx => hlacks hx) hmissing
  | call p func args =>
    rw [Expr.fold]
    split
    · exact Expr.isSettled_foldAlias p _ args
    rename_i ha
    split
    · rfl
    rename_i hcond
    have hargs : ∀ x ∈ args, x.isChoice = false := fun x hx => hl x
      (List.mem_cons_of_mem _ (List.mem_append_right _
        (Expr.mem_walkList.2 ⟨x, hx, Expr.self_mem_walk x⟩)))
    obtain ⟨ha', hcond'⟩ := undecided_fold names hc hargs ha hcond
    simp only [Expr.isSettled, ha', hcond', Option.isNone_none, Bool.true_and, Bool.and_eq_true]
    cases func with
    | name q id =>
      have hmacro : id ≠ Predicate.textMacro.name := by
        rintro rfl
        exact hm _ (Expr.self_mem_walk _) rfl
      exact ⟨Expr.isSettled_foldName q id, list .argument (by simp [Expr.parts, hmacro])⟩
    | member q receiver attr =>
      exact ⟨ih (q := (.receiver, receiver)) (by simp [Expr.parts]),
        list .argument (by simp [Expr.parts])⟩
    | _ => simp [checkExpr] at hc
  | member p value attr => exact ih (q := (.record, value)) (by simp [Expr.parts])
  | subscript p value index =>
    simp only [Expr.fold, Expr.isSettled, Bool.and_eq_true]
    exact ⟨ih (q := (.array, value)) (by simp [Expr.parts]),
      ih (q := (.index, index)) (by simp [Expr.parts])⟩
  | ifExp p test body orelse => simp [Expr.walk, Expr.isChoice] at hl
  | name p id => exact Expr.isSettled_foldName p id
  | const p value => rfl
  | tuple | list | slice => simp [checkExpr] at hc
termination_by sizeOf e

end Verification

/-! ## Whole statements -/

namespace Stmt

/-- Whether an expression may stand in a statement in folded form: conditions and assigned values
are no literal truth values then. -/
structure InForm (role : Role) (e : Expr) : Prop where
  /-- The expression is in folded form. -/
  normal : e.isNormal = true
  /-- It is no literal truth value where one would have been used. -/
  isOpen : role = .condition ∨ role = .assigned → e.bool? = none

variable {P : Role → Expr → Prop}

private theorem holdsBlock_and_inForm {b : Block}
    (ih : ∀ s ∈ b, s.Holds P → s.isNormal = true → s.Holds fun role e => P role e ∧ InForm role e)
    (hb : HoldsBlock P b) (hn : isNormalBlock b = true) :
    HoldsBlock (fun role e => P role e ∧ InForm role e) b := by
  induction b with
  | nil => trivial
  | cons s ss ihb =>
    simp only [isNormalBlock, Bool.and_eq_true] at hn
    exact ⟨ih s List.mem_cons_self hb.1 hn.1,
      ihb (fun t ht => ih t (List.mem_cons_of_mem _ ht)) hb.2 hn.2⟩

/-- What stands in a statement in folded form is in folded form. -/
theorem Holds.and_inForm (s : Stmt) : s.Holds P → s.isNormal = true →
    s.Holds fun role e => P role e ∧ InForm role e := by
  induction s using Stmt.partsInduction with
  | assign p targets value =>
    rintro ⟨⟨q, id, rfl⟩, hvalue⟩ hn
    simp only [isNormal, Bool.and_eq_true] at hn
    refine ⟨⟨q, id, rfl⟩, hvalue, hn.1, fun _ => ?_⟩
    cases hb : value.bool? with
    | none => rfl
    | some v => simp [constantBinding?, hb] at hn
  | ifElse p test body orelse ihb iho =>
    rintro ⟨htest, hbody, horelse⟩ hn
    simp only [isNormal, Bool.and_eq_true, Option.isNone_iff_eq_none] at hn
    obtain ⟨⟨⟨⟨⟨hnt, hopen⟩, -⟩, -⟩, hnb⟩, hno⟩ := hn
    exact ⟨⟨htest, hnt, fun _ => hopen⟩, holdsBlock_and_inForm ihb hbody hnb,
      holdsBlock_and_inForm iho horelse hno⟩
  | forEach p target iter body orelse ihb iho =>
    rintro ⟨htarget, hiter, hbody, horelse⟩ hn
    simp only [isNormal, Bool.and_eq_true] at hn
    exact ⟨htarget, ⟨hiter, hn.1.1, (by simp)⟩, holdsBlock_and_inForm ihb hbody hn.2, horelse⟩
  | expr p value =>
    intro hs hn
    simp only [isNormal, Bool.or_eq_true] at hn
    rcases hn with hcomment | hn
    · exact .inl hcomment
    · exact hs.imp_right fun hvalue => ⟨hvalue, hn, (by simp)⟩
  | pass => exact fun _ _ => trivial
  | _ => exact fun hs _ => hs.elim

end Stmt

namespace Block

open Verification Stmt

/-- Whether nothing is left in a statement that a build decides. -/
structure Spent (build : Build) (c : Block) : Prop where
  /-- No version is asked for by its numbers. -/
  versions : ∀ p q r t major minor, .call p (.name q Predicate.isVersion.name)
    [.const r (.int major), .const t (.int minor)] ∉ c.walk
  /-- Extensions that are asked for are enabled. -/
  extensions : ∀ p q r id, .call p (.name q Predicate.isExtEnabled.name) [.name r id] ∈ c.walk →
    build.config.hasExtension id = true
  /-- Features that are asked for are defined. -/
  features : ∀ p q r id, .call p (.name q Predicate.isFeatureEnabled.name) [.name r id] ∈ c.walk →
    build.availability.featureDefined build.config id = true
  /-- Structures that are looked for in the chain of the subject are defined. -/
  structs : ∀ p q r id, .call p (.name q Predicate.hasPnext.name) [.name r id] ∈ c.walk →
    build.availability.structDefined build.config id = true
  /-- Structures that are looked for in another chain are defined. -/
  chained : ∀ p q value r id, .call p (.member q value Method.hasPnext.name) [.name r id] ∈ c.walk →
    build.availability.structDefined build.config id = true
  /-- Bits that are looked for are defined. -/
  bits : ∀ p q value r id, .call p (.member q value Method.hasBit.name) [.name r id] ∈ c.walk →
    build.availability.enumValueDefined build.config id = true
  /-- Nothing is compared with an enumeration value that the build lacks. -/
  values : ∀ p left ops comparators, .compare p left ops comparators ∈ c.walk →
    .eq ∈ ops ∨ .notEq ∈ ops → ∀ e ∈ left :: comparators, build.lacksValue e = false
  /-- No literal truth value is joined with conditions. -/
  conditions : ∀ p op values, .boolOp p op values ∈ c.walk → ∀ e ∈ values, e.bool? = none
  /-- No literal truth value is negated. -/
  negations : ∀ p e, .unary p .not e ∈ c.walk → e.bool? = none
  /-- No literal truth value is the condition of an `if`. -/
  tests : ∀ p test body orelse, .ifElse p test body orelse ∈ c.statements → test.bool? = none
  /-- No name is bound to a literal truth value. -/
  bindings : ∀ p targets value, .assign p targets value ∈ c.statements → value.bool? = none
  /-- The only literal truth value that is required is `False`. -/
  requirements : ∀ p q r t v,
    .expr p (.call q (.name r Predicate.require.name) [.const t (.bool v)]) ∈ c.statements →
      v = false

/-- What stands in a statement of which nothing is left that a build decides. -/
structure IsSpent (build : Build) (role : Role) (e : Expr) : Prop where
  /-- Every part is of a form that the language has. -/
  language : ∀ x ∈ e.walk, x.isInLanguage = true
  /-- The build decides nothing in it. -/
  settled : e.isSettled build = true
  /-- It is no requirement of `True`. -/
  required : role = .statement → requiresTrue e = false

/-- What folding makes of an accepted expression is spent. -/
theorem foldsTo_isSpent {s : Subject} {build : Build} {T : List (Expr × Ty)} {W : List Expr}
    (hr : s.registry.IsNamed) (hlang : ∀ x ∈ W, x.isInLanguage = true)
    (hl : ∀ x ∈ W, x.isChoice = false)
    (hm : ∀ x ∈ W, x.callName? ≠ some Predicate.textMacro.name) :
    FoldsTo build (fun _ e => (∃ t, Visits s T (fun b => isPredicateName b.name = false ∧
      build.availability.isEnumValue b.name = false) (e, t)) ∧ e.walk ⊆ W) (IsSpent build) where
  fold role e names he hopen := by
    obtain ⟨⟨t, scope, hs, hc, -, -⟩, hw⟩ := he
    have hf : IsFree scope := fun b hb => (hs b hb).1
    refine ⟨(Expr.foldsNodes_isInLanguage build).forall_mem_walk_fold fun x hx => hlang x (hw hx),
      isSettled_fold hr hf (fun b hb => (hs b hb).2) hc (fun x hx => hl x (hw hx))
        (fun x hx => hm x (hw hx)), fun hrole => ?_⟩
    cases hreq : requiresTrue (e.fold build names) with
    | false => rfl
    | true =>
      simp only [requiresTrue, Bool.and_eq_true, beq_iff_eq] at hreq
      have hself := require_of_fold hf hc (fun x hx => hl x (hw hx)) hreq.1
      exact absurd hreq.2 (hopen hrole hself)
  negated e he :=
    ⟨(Expr.foldsNodes_isInLanguage build).forall_mem_walk_negated he.language,
      Expr.isSettled_negated he.settled, nofun⟩

/-- Nothing in a comment is decided by a build. -/
theorem settled_comment (build : Build) {p : Pos} {value : Expr}
    (h : (Stmt.expr p value).isComment = true) :
    ∀ x ∈ value.walk, x.isNormal = true ∧ x.isSettled build = true := by
  obtain ⟨text, ht⟩ := Option.isSome_iff_exists.1 h
  obtain ⟨p', q, r, rfl⟩ := eq_call_of_comment? ht
  have hname : Predicate.ofName? commentName = none := by decide
  have hfeature : commentName ≠ Predicate.isFeatureEnabled.name := by decide
  simp [Expr.walk, Expr.walkList, Expr.isNormal, Expr.isNormalList, Expr.isSettled,
    Expr.isSettledList, Build.aliasOfFeature?, Build.condition?, Expr.name?, hname, hfeature]

/-- A comment is a call of the language. -/
theorem isInLanguage_comment {p : Pos} {value : Expr} (h : (Stmt.expr p value).isComment = true) :
    ∀ x ∈ value.walk, x.isInLanguage = true := by
  obtain ⟨text, ht⟩ := Option.isSome_iff_exists.1 h
  obtain ⟨p', q, r, rfl⟩ := eq_call_of_comment? ht
  simp [Expr.walk, Expr.walkList, Expr.isInLanguage]

/-- A statement in folded form whose expressions are spent is spent. -/
theorem spent_of_holdsBlock {build : Build} {c : Block}
    (hc : HoldsBlock (fun role e => IsSpent build role e ∧ InForm role e) c) : c.Spent build := by
  have hwalk : ∀ x ∈ c.walk, x.isNormal = true ∧ x.isSettled build = true :=
    hc.forall_mem_walk (by simp [Expr.isNormal, Expr.isSettled]) (fun _ _ => settled_comment build)
      fun role e he => Expr.forall_mem_walk_isSettled he.1.language he.2.normal he.1.settled
  have hlang : ∀ x ∈ c.walk, x.isInLanguage = true :=
    hc.forall_mem_walk (fun _ _ => rfl) (fun _ _ => isInLanguage_comment)
      fun _ _ he => he.1.language
  have hstmt := hc.forall_mem_nested
  have hcall {p : Pos} {func : Expr} {args : List Expr} (h : .call p func args ∈ c.walk) :
      build.condition? func args = none := by
    have hs := (hwalk _ h).2
    simp only [Expr.isSettled, Bool.and_eq_true, Option.isNone_iff_eq_none] at hs
    exact hs.1.1.2
  constructor
  case versions =>
    intro p q r t major minor h
    have hnone := hcall h
    simp [Build.condition?, Predicate.ofName?_name, Build.callCondition?, Expr.int?] at hnone
  case extensions | features | structs =>
    intro p q r id h
    simpa [Build.condition?, Predicate.ofName?_name, Build.callCondition?, Build.argumentName?,
      Expr.name?, Build.structCondition?] using hcall h
  case chained | bits =>
    intro p q value r id h
    simpa [Build.condition?, Method.ofName?_name, Build.methodCondition?, Build.argumentName?,
      Expr.name?, Build.structCondition?] using hcall h
  case values =>
    intro p left ops comparators h heq e he
    have hself := hlang _ h
    simp only [Expr.isInLanguage, Bool.and_eq_true, beq_iff_eq] at hself
    obtain ⟨op, rfl⟩ := List.length_eq_one_iff.1 hself.1.1
    obtain ⟨right, rfl⟩ := List.length_eq_one_iff.1 hself.1.2
    have hs := (hwalk _ h).2
    simp only [Expr.isSettled, Bool.and_eq_true, Option.isNone_iff_eq_none] at hs
    have hsides : build.lacksValue left = false ∧ build.lacksValue right = false := by
      rcases heq with heq | heq
      · obtain rfl := List.mem_singleton.1 heq
        simpa [Expr.missingValue?] using hs.1.1
      · obtain rfl := List.mem_singleton.1 heq
        simpa [Expr.missingValue?] using hs.1.1
    rcases List.mem_cons.1 he with rfl | he
    · exact hsides.1
    · obtain rfl := List.mem_singleton.1 he
      exact hsides.2
  case conditions =>
    intro p op values h e he
    have hn := (hwalk _ h).1
    simp only [Expr.isNormal, Bool.and_eq_true, List.all_eq_true] at hn
    exact Option.isNone_iff_eq_none.1 (hn.1.2 e he)
  case negations =>
    intro p e h
    have hn := (hwalk _ h).1
    simp only [Expr.isNormal, bne_self_eq_false, Bool.false_or, Bool.and_eq_true] at hn
    exact Option.isNone_iff_eq_none.1 hn.2.1
  case tests =>
    intro p test body orelse h
    exact (hstmt _ h).1.2.isOpen (.inl rfl)
  case bindings =>
    intro p targets value h
    exact (hstmt _ h).2.2.isOpen (.inr rfl)
  case requirements =>
    intro p q r t v h
    cases v with
    | false => rfl
    | true =>
      rcases hstmt _ h with hcomment | ⟨he, -⟩
      · cases hcomment
      · have hopen := he.required rfl
        simp [requiresTrue, Expr.callName?, Expr.name?, firstArgument?, Expr.bool?] at hopen

/-- What a build leaves of an accepted statement without conditional expressions and macros, no name
of which is tracked as an enumeration value, holds nothing that the build decides. -/
theorem spent_strip {s : Subject} {build : Build} {b c : Block} (hr : s.registry.IsNamed)
    (hok : (b.verify s).isOk = true) (hl : ∀ x ∈ b.walk, x.isChoice = false)
    (hm : ∀ x ∈ b.walk, x.callName? ≠ some Predicate.textMacro.name)
    (hU : ∀ id ∈ b.bound, build.availability.isEnumValue id = false)
    (h : (b.strip build).block = some c) : c.Spent build := by
  have hbinds : Binds s (b.verify s).types (fun id => build.availability.isEnumValue id = false)
      fun b => isPredicateName b.name = false ∧ build.availability.isEnumValue b.name = false :=
    ⟨fun _ hb => hb.1, fun _ _ hN hf _ _ => ⟨hf, hN⟩⟩
  have hstands := (visits_of_isOk hok hbinds hU).2
  have hwalk := hstands.imp fun role e he hw => And.intro he hw
  have hlang := (wellScoped_of_isOk hok hm).exprs
  have hspent := holdsBlock_strip (foldsTo_isSpent hr hlang hl hm) hwalk h
  exact spent_of_holdsBlock
    (holdsBlock_and_inForm (fun s _ => Holds.and_inForm s) hspent (normal_of_strip h).1)

/-- The name of a version condition, bound before a requirement. -/
private def requireNamedVersion : Block :=
  [.assign .none [.name .none "first"]
    (.call .none (.name .none "is_version") [.const .none (.int 1), .const .none (.int 0)]),
   .expr .none (.call .none (.name .none "require")
    [.boolOp .none .or [.unary .none .not (.name .none "first"),
      .compare .none (.member .none (.name .none "pInfo") "count") [.eq] [.const .none (.int 1)]]])]

/-- A command with a structure to draw from. -/
private def drawCommand : Subject where
  registry := { entities := [⟨"vkCmdDraw", .command, [⟨"pInfo", "VkDrawInfo", 0, none, none⟩], none,
      none, []⟩, ⟨"VkDrawInfo", .struct, [⟨"count", "uint32_t", 0, none, none⟩], none, none, []⟩] }
  api := "vkCmdDraw"

/-- The requirement of a count. -/
private def requireCount : Block :=
  [.expr .none (.call .none (.name .none "require")
    [.compare .none (.member .none (.name .none "pInfo") "count") [.eq] [.const .none (.int 1)]])]

/-- Where a condition on the first version has a name, the first version leaves what is required
when the condition holds. -/
theorem spent_requireNamedVersion :
    (requireNamedVersion.strip firstBuild).block = some requireCount ∧
      requireCount.Spent firstBuild := by
  have hstrip : (requireNamedVersion.strip firstBuild).block = some requireCount :=
    withoutDeadCode_of_prune rfl
  refine ⟨hstrip, ?_⟩
  refine spent_strip (s := drawCommand) (b := requireNamedVersion) ?_ (by decide +kernel)
    (by decide +kernel) (by decide +kernel) (by decide +kernel) hstrip
  constructor <;> decide

end Block
end ValidUsage
