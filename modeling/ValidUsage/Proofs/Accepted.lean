import ValidUsage.Proofs.Uses
import ValidUsage.Proofs.Writable
import ValidUsage.Verification.Basic

/-!
# What acceptance of an expression says of its parts

An expression without issues has parts without issues, save the arguments of `macro`, which are not
looked at. Besides, a value of type `void` is no condition and no iterator, and no member or element
of it is taken; it is an operand or an index only beside an expression whose type is unknown.
-/

namespace ValidUsage

/-- What a role asks of the type of a value; `types` are those of the expressions around it. -/
def Role.Suits (types : List (Expr × Ty)) (t : Ty) : Role → Prop
  | condition | iterator | record | array => t ≠ .void
  | operand | index => t = .void → ∃ x ∈ types, x.2.isUnknown = true
  | callee | element => False
  | statement | assigned | compared | argument | receiver | branch | text => True

private theorem Role.ofComparison_singleton (op : CmpOp) :
    Role.ofComparison [op] = if op.isEquality then .compared else .operand := by
  cases op <;> rfl

namespace Ty

@[simp] theorem isUnknown_void : isUnknown .void = false := by decide

@[simp] theorem isPointer_void : isPointer .void = false := by decide

@[simp] theorem isArray_void : isArray .void = false := by decide

@[simp] theorem dereferenced_void : dereferenced .void = .void := rfl

end Ty

namespace Verification

/-- Whether a use is accepted where it stands. -/
structure Accepts (s : Subject) (scope : Scope) (types : List (Expr × Ty)) (u : Role × Expr) :
    Prop where
  /-- The expression has no issue. -/
  clean : (checkExpr s scope u.2).issues = []
  /-- Its type suits the role. -/
  suits : u.1.Suits types (checkExpr s scope u.2).value

/-- Whether no name of a scope is that of a predicate. -/
def IsFree (scope : Scope) : Prop := ∀ b ∈ scope, isPredicateName b.name = false

variable {s : Subject} {scope : Scope}

section Judgements

variable {e left right : Expr} {t l r : Ty}

/-- A condition that is accepted is not of type `void`. -/
theorem ne_void_of_judgeCondition {context : String}
    (h : (judgeCondition context e t).issues = []) : t ≠ .void := by
  rintro rfl
  simp [judgeCondition, Ty.void, Ty.isUnknown, Ty.isPointer] at h

private theorem ne_void_of_typeOfUnary {op : UnaryOp} (h : (typeOfUnary op e t).issues = []) :
    t ≠ .void := by
  rintro rfl
  cases op <;>
    simp [typeOfUnary, UnaryOp.operandClass, Ty.void, Ty.isUnknown, Ty.isPointer] at h

/-- Operands of known types are not of type `void`. -/
theorem ne_void_of_typeOfBinary {op : BinOp} (h : (typeOfBinary s left right op l r).issues = [])
    (hl : l.isUnknown = false) (hr : r.isUnknown = false) : l ≠ .void ∧ r ≠ .void := by
  constructor <;> rintro rfl <;> unfold typeOfBinary at h <;>
    simp only [hl, hr, Bool.or_self, Bool.false_eq_true, if_false] at h <;>
    split at h <;> try simp at h
  all_goals
    split at h
    · simp [Ty.void] at h
    · simp [isFlagsType, Ty.void] at h

/-- An ordering of values of known types is not one of values of type `void`. -/
theorem ne_void_of_judgeComparison {op : CmpOp} (hop : op.isEquality = false)
    (h : (judgeComparison s e left right op l r).issues = []) (hl : l.isUnknown = false)
    (hr : r.isUnknown = false) : l ≠ .void ∧ r ≠ .void := by
  constructor <;> rintro rfl <;> unfold judgeComparison at h <;> split at h <;>
    simp_all [Ty.void]

private theorem ne_void_of_typeOfMember {attr : String}
    (h : (typeOfMember s e attr t).issues = []) :
    t ≠ .void := by
  rintro rfl
  simp only [typeOfMember, Ty.dereferenced_void, Ty.isUnknown_void, Bool.false_eq_true,
    if_false] at h
  split at h
  · simp at h
  · simp [Ty.void] at h

/-- What elements are taken of is not of type `void`, nor is the index if the type of the array is
known. -/
theorem ne_void_of_typeOfElement (h : (typeOfElement left right l r).issues = []) :
    l ≠ .void ∧ (l.isUnknown = false → r ≠ .void) := by
  constructor
  · rintro rfl
    simp [typeOfElement] at h
  · rintro hl rfl
    cases ha : l.isArray <;> simp [typeOfElement, hl, ha] at h
    simp [Ty.void] at h

/-- An accepted iterator is an accepted expression, and not of type `void`. -/
theorem clean_of_checkIterator (h : (checkIterator s scope e).issues = []) :
    (checkExpr s scope e).issues = [] ∧ (checkExpr s scope e).value ≠ .void ∧
      (checkExpr s scope e).types ⊆ (checkIterator s scope e).types ∧
      (checkIterator s scope e).requires = (checkExpr s scope e).requires := by
  cases hd : isDisplay e with
  | true => simp [checkIterator, hd] at h
  | false =>
    simp only [checkIterator, hd, Bool.false_eq_true, if_false, Checked.issues_bind,
      List.append_eq_nil_iff] at h
    refine ⟨h.1, fun hv => by simp [hv] at h, by simp [checkIterator, hd], ?_⟩
    simp only [checkIterator, hd, Bool.false_eq_true, if_false, Checked.requires_bind]
    split
    · rfl
    · split <;> rfl

end Judgements

section Lists

variable {e : Expr} {es : List Expr} {ds : List Ty} {name context : String}

/-- The type of an expression is recorded. -/
theorem mem_types_self (s : Subject) (scope : Scope) (e : Expr) :
    (e, (checkExpr s scope e).value) ∈ (checkExpr s scope e).types := by
  cases e with
  | call p func args => cases func <;> simp [checkExpr]
  | _ => simp [checkExpr]

private theorem clean_of_checkAll (h : (checkAll s scope es).issues = []) (he : e ∈ es) :
    (checkExpr s scope e).issues = [] := by
  induction es with
  | nil => simp at he
  | cons e' es ih =>
    simp only [checkAll, Checked.issues_bind, List.append_eq_nil_iff] at h
    rcases List.mem_cons.1 he with rfl | he
    · exact h.1
    · exact ih h.2.1 he

private theorem types_subset_checkAll (he : e ∈ es) :
    (checkExpr s scope e).types ⊆ (checkAll s scope es).types := by
  induction es with
  | nil => simp at he
  | cons e' es ih =>
    simp only [checkAll, Checked.types_bind]
    rcases List.mem_cons.1 he with rfl | he
    · exact List.subset_append_left _ _
    · exact fun x hx => List.mem_append_right _ (List.mem_append_left _ (ih he hx))

/-- Of joined conditions without an issue each has none, and is accepted as a condition. -/
theorem clean_of_checkConditions (h : (checkConditions s scope context es).issues = [])
    (he : e ∈ es) :
    (checkExpr s scope e).issues = [] ∧
      (judgeCondition context e (checkExpr s scope e).value).issues = [] := by
  induction es with
  | nil => simp at he
  | cons e' es ih =>
    simp only [checkConditions, Checked.issues_bind, List.append_eq_nil_iff] at h
    rcases List.mem_cons.1 he with rfl | he
    · exact ⟨h.1, h.2.1⟩
    · exact ih h.2.2 he

private theorem types_subset_checkConditions (he : e ∈ es) :
    (checkExpr s scope e).types ⊆ (checkConditions s scope context es).types := by
  induction es with
  | nil => simp at he
  | cons e' es ih =>
    simp only [checkConditions, Checked.types_bind]
    rcases List.mem_cons.1 he with rfl | he
    · exact List.subset_append_left _ _
    · exact fun x hx => List.mem_append_right _ (List.mem_append_right _ (ih he hx))

/-- An argument has no issue, and its type is one that is declared unless it is unknown. -/
theorem clean_of_checkArguments (h : (checkArguments s scope name ds es).issues = [])
    (hlen : es.length = ds.length) (he : e ∈ es) :
    (checkExpr s scope e).issues = [] ∧ ∃ d ∈ ds, (checkExpr s scope e).value.isUnknown = true ∨
      s.registry.accepts d (checkExpr s scope e).value = true := by
  induction es generalizing ds with
  | nil => simp at he
  | cons e' es ih =>
    cases ds with
    | nil => simp at hlen
    | cons d ds =>
      simp only [checkArguments, Checked.issues_bind, List.append_eq_nil_iff] at h
      rcases List.mem_cons.1 he with rfl | he
      · refine ⟨h.1, d, List.mem_cons_self, ?_⟩
        have hj := h.2.1
        simp only [judgeArgument, Checked.issues_reportIf] at hj
        cases hu : (checkExpr s scope e).value.isUnknown <;> simp_all
      · obtain ⟨hc, d', hd', hj⟩ := ih h.2.2.1 (by simpa using hlen) he
        exact ⟨hc, d', List.mem_cons_of_mem _ hd', hj⟩

private theorem types_subset_checkArguments (hlen : es.length = ds.length) (he : e ∈ es) :
    (checkExpr s scope e).types ⊆ (checkArguments s scope name ds es).types := by
  induction es generalizing ds with
  | nil => simp at he
  | cons e' es ih =>
    cases ds with
    | nil => simp at hlen
    | cons d ds =>
      simp only [checkArguments, Checked.types_bind]
      rcases List.mem_cons.1 he with rfl | he
      · exact List.subset_append_left _ _
      · intro x hx
        have := ih (by simpa using hlen : es.length = ds.length) he hx
        exact List.mem_append_right _ (List.mem_append_right _ (List.mem_append_left _ this))

end Lists

section Parts

variable {e : Expr} {types : List (Expr × Ty)}

/-- A use that is accepted, and whose types are among some. -/
structure AcceptsWithin (s : Subject) (scope : Scope) (types : List (Expr × Ty))
    (u : Role × Expr) : Prop extends Accepts s scope types u where
  /-- The types of the expression are among them, unless it is a leaf. -/
  within : u.2.parts = [] ∨ (checkExpr s scope u.2).types ⊆ types

/-- The name of a loop is no predicate, so it may be the argument of `array_index`. -/
theorem clean_of_isLoopVariable (hf : IsFree scope) {p : Pos} {id : String}
    (h : scope.isLoopVariable id = true) : (checkExpr s scope (.name p id)).issues = [] := by
  cases hb : scope.find? id with
  | none => simp [Scope.isLoopVariable, hb] at h
  | some b =>
    have hid : b.name = id := by simpa using List.find?_some hb
    have hfree : isPredicateName id = false := hid ▸ hf b (List.mem_of_find?_eq_some hb)
    simp [checkExpr, typeOfName, hfree, hb]

/-- What stands for a loop variable without an issue is the name of one. -/
theorem name_of_judgeLoopVariable {args : List Expr}
    (h : (judgeLoopVariable scope args).issues = [])
    (hlen : args.length = Predicate.arrayIndex.signature.args.length) (he : e ∈ args) :
    ∃ p id, e = .name p id ∧ scope.isLoopVariable id = true := by
  obtain ⟨arg, rfl⟩ := List.length_eq_one_iff.1 hlen
  obtain rfl := List.mem_singleton.1 he
  cases e with
  | name p id => exact ⟨p, id, rfl, by simpa [judgeLoopVariable, Expr.name?] using h⟩
  | _ => simp [judgeLoopVariable, Expr.name?] at h

/-- Two operands that are not of type `void` when their types are known suit their roles. -/
theorem suits_operands {left right : Expr} {l r : Ty}
    (h : l.isUnknown = false → r.isUnknown = false → l ≠ .void ∧ r ≠ .void)
    (hl : (left, l) ∈ types) (hr : (right, r) ∈ types) :
    Role.operand.Suits types l ∧ Role.operand.Suits types r := by
  constructor
  · rintro rfl
    cases hu : r.isUnknown with
    | true => exact ⟨_, hr, hu⟩
    | false => exact absurd rfl (h Ty.isUnknown_void hu).1
  · rintro rfl
    cases hu : l.isUnknown with
    | true => exact ⟨_, hl, hu⟩
    | false => exact absurd rfl (h hu Ty.isUnknown_void).2

/-- A comparison that is accepted has one operator. -/
theorem eq_of_judgeComparisons {left : Expr} {ops : List CmpOp} {comparators : List Expr} {l : Ty}
    {rs : List Ty} (h : (judgeComparisons s e left ops comparators l rs).issues = []) :
    ∃ op right r, ops = [op] ∧ comparators = [right] ∧ rs = [r] ∧
      (judgeComparison s e left right op l r).issues = [] := by
  unfold judgeComparisons at h
  split at h
  · exact ⟨_, _, _, rfl, rfl, rfl, h⟩
  · simp at h

private theorem length_of_judgeCount {sig : Signature} {count : Nat}
    (h : (judgeCount sig e count).issues = []) : count = sig.args.length := by
  simpa [judgeCount] using h

/-- What the acceptance of a call by name says: a predicate of the name is given as many arguments
as it is declared with, and they are checked unless they are not evaluated. -/
theorem clean_call_name {p q : Pos} {id : String} {args : List Expr}
    (hc : (checkExpr s scope (.call p (.name q id) args)).issues = []) :
    ∃ pred, Predicate.ofName? id = some pred ∧ args.length = pred.signature.args.length ∧
      (pred = .arrayIndex → (judgeLoopVariable scope args).issues = []) ∧
      (pred ≠ .arrayIndex → pred ≠ .textMacro →
        (checkArguments s scope pred.name pred.signature.args args).issues = [] ∧
        (checkArguments s scope pred.name pred.signature.args args).types ⊆
          (checkExpr s scope (.call p (.name q id) args)).types) := by
  cases hid : Predicate.ofName? id with
  | none => simp [checkExpr, hid] at hc
  | some pred =>
    have hlen : args.length = pred.signature.args.length := by
      simp only [checkExpr, hid, Checked.issues_typed] at hc
      split at hc <;> simp only [Checked.issues_bind, List.append_eq_nil_iff] at hc
      · exact length_of_judgeCount hc.2.1
      · exact length_of_judgeCount hc.1
    refine ⟨pred, rfl, hlen, ?_, fun ha ht => ?_⟩
    · rintro rfl
      simp only [checkExpr, hid, hlen] at hc
      simp at hc
      exact hc.2
    · simp only [checkExpr, hid, hlen, ha, ht, ne_eq, not_true_eq_false, if_false] at hc ⊢
      split at hc <;> rename_i hr <;>
        simp only [Checked.issues_typed, Checked.issues_bind, List.append_eq_nil_iff] at hc
      · exact ⟨hc.2.2.1, by simp [hr]⟩
      · exact ⟨hc.2.1, by simp [hr]⟩

/-- What the acceptance of a call on a receiver says. -/
theorem clean_call_member {p q : Pos} {receiver : Expr} {attr : String} {args : List Expr}
    (hc : (checkExpr s scope (.call p (.member q receiver attr) args)).issues = []) :
    ∃ m, Method.ofName? attr = some m ∧ (checkExpr s scope receiver).issues = [] ∧
      (judgeReceiver s m receiver (checkExpr s scope receiver).value.dereferenced).issues = [] ∧
      args.length = m.signature.args.length ∧
      (checkArguments s scope m.name m.signature.args args).issues = [] ∧
      (checkExpr s scope receiver).types ⊆
        (checkExpr s scope (.call p (.member q receiver attr) args)).types ∧
      (checkArguments s scope m.name m.signature.args args).types ⊆
        (checkExpr s scope (.call p (.member q receiver attr) args)).types := by
  cases hid : Method.ofName? attr with
  | none => simp [checkExpr, hid] at hc
  | some m =>
    have hlen : args.length = m.signature.args.length := by
      simp only [checkExpr, hid, Checked.issues_typed, Checked.issues_bind,
        List.append_eq_nil_iff] at hc
      exact length_of_judgeCount hc.2.2.1
    simp only [checkExpr, hid, hlen, ne_eq, not_true_eq_false, if_false, Checked.issues_typed,
      Checked.issues_bind, List.append_eq_nil_iff] at hc
    refine ⟨m, rfl, hc.1, hc.2.1, hlen, hc.2.2.2.1, by simp [checkExpr, hid, hlen], ?_⟩
    intro x hx
    simp [checkExpr, hid, hlen, hx]

/-- The parts of an accepted expression are accepted. -/
theorem acceptsWithin_parts (hf : IsFree scope) (hc : (checkExpr s scope e).issues = [])
    (ht : (checkExpr s scope e).types ⊆ types) : ∀ q ∈ e.parts, AcceptsWithin s scope types q := by
  intro q hq
  cases e with
  | boolOp p op values =>
    obtain ⟨e, he, rfl⟩ := List.mem_map.1 hq
    simp only [checkExpr, Checked.issues_typed, Checked.issues_bind, Checked.issues_pure,
      List.append_nil] at hc
    simp only [checkExpr, Checked.types_typed, Checked.types_bind, Checked.types_pure,
      List.append_nil, List.append_subset] at ht
    obtain ⟨hec, hj⟩ := clean_of_checkConditions hc he
    exact ⟨⟨hec, ne_void_of_judgeCondition hj⟩,
      Or.inr (List.Subset.trans (types_subset_checkConditions he) ht.1)⟩
  | binary p left op right =>
    simp only [checkExpr, Checked.issues_typed, Checked.issues_bind, List.append_eq_nil_iff] at hc
    simp only [checkExpr, Checked.types_typed, Checked.types_bind, List.append_subset] at ht
    obtain ⟨hl, hr, hj⟩ := hc
    obtain ⟨⟨htl, htr, -⟩, -⟩ := ht
    have hsuits := suits_operands (ne_void_of_typeOfBinary hj) (htl (mem_types_self s scope left))
      (htr (mem_types_self s scope right))
    simp only [Expr.parts, List.mem_cons, List.not_mem_nil, or_false] at hq
    rcases hq with rfl | rfl
    · exact ⟨⟨hl, hsuits.1⟩, .inr htl⟩
    · exact ⟨⟨hr, hsuits.2⟩, .inr htr⟩
  | unary p op operand =>
    simp only [checkExpr, Checked.issues_typed, Checked.issues_bind, List.append_eq_nil_iff] at hc
    simp only [checkExpr, Checked.types_typed, Checked.types_bind, List.append_subset] at ht
    obtain rfl := List.mem_singleton.1 hq
    exact ⟨⟨hc.1, fun hv => absurd hv (ne_void_of_typeOfUnary hc.2)⟩, .inr ht.1.1⟩
  | compare p left ops comparators =>
    simp only [checkExpr, Checked.issues_typed, Checked.issues_bind, Checked.issues_pure,
      List.append_nil, List.append_eq_nil_iff] at hc
    simp only [checkExpr, Checked.types_typed, Checked.types_bind, Checked.types_pure,
      List.append_nil, List.append_subset] at ht
    obtain ⟨op, right, r, rfl, rfl, hrs, hj⟩ := eq_of_judgeComparisons hc.2.2
    obtain ⟨⟨htl, htr, -⟩, -⟩ := ht
    have hright : (checkExpr s scope right).types ⊆ (checkAll s scope [right]).types :=
      types_subset_checkAll (List.mem_singleton_self right)
    obtain rfl : (checkExpr s scope right).value = r := by simpa [checkAll] using hrs
    have hsuits : (Role.ofComparison [op]).Suits types (checkExpr s scope left).value ∧
        (Role.ofComparison [op]).Suits types (checkExpr s scope right).value := by
      rw [Role.ofComparison_singleton]
      split
      · exact ⟨trivial, trivial⟩
      · rename_i hop
        exact suits_operands (ne_void_of_judgeComparison (by simpa using hop) hj)
          (htl (mem_types_self s scope left)) (htr (hright (mem_types_self s scope right)))
    simp only [Expr.parts, List.map_cons, List.map_nil, List.mem_cons, List.not_mem_nil,
      or_false] at hq
    rcases hq with rfl | rfl
    · exact ⟨⟨hc.1, hsuits.1⟩, .inr htl⟩
    · exact ⟨⟨clean_of_checkAll hc.2.1 (List.mem_singleton_self right), hsuits.2⟩,
        .inr (List.Subset.trans hright htr)⟩
  | call p func args =>
    cases func with
    | name p' id =>
      obtain ⟨pred, hid, hlen, hindex, hargs⟩ := clean_call_name hc
      simp only [Expr.parts] at hq
      split at hq
      · simp at hq
      rename_i hmacro
      obtain ⟨e, he, rfl⟩ := List.mem_map.1 hq
      have ht' : pred ≠ .textMacro := by
        rintro rfl
        exact hmacro (Predicate.name_of_ofName? hid).symm
      by_cases ha : pred = .arrayIndex
      · obtain ⟨r, id', rfl, hloop⟩ := name_of_judgeLoopVariable (hindex ha) (ha ▸ hlen) he
        exact ⟨⟨clean_of_isLoopVariable hf hloop, trivial⟩, .inl rfl⟩
      · obtain ⟨hc', ht''⟩ := hargs ha ht'
        exact ⟨⟨(clean_of_checkArguments hc' hlen he).1, trivial⟩,
          .inr (List.Subset.trans (types_subset_checkArguments hlen he)
            (List.Subset.trans ht'' ht))⟩
    | member p' receiver attr =>
      obtain ⟨m, hid, hrec, hj, hlen, hargs, htr, hta⟩ := clean_call_member hc
      rcases List.mem_cons.1 hq with rfl | hq
      · exact ⟨⟨hrec, trivial⟩, .inr (List.Subset.trans htr ht)⟩
      · obtain ⟨e, he, rfl⟩ := List.mem_map.1 hq
        exact ⟨⟨(clean_of_checkArguments hargs hlen he).1, trivial⟩,
          .inr (List.Subset.trans (types_subset_checkArguments hlen he)
            (List.Subset.trans hta ht))⟩
    | _ => simp [checkExpr] at hc
  | member p value attr =>
    simp only [checkExpr, Checked.issues_typed, Checked.issues_bind, List.append_eq_nil_iff] at hc
    simp only [checkExpr, Checked.types_typed, Checked.types_bind, List.append_subset] at ht
    obtain rfl := List.mem_singleton.1 hq
    exact ⟨⟨hc.1, ne_void_of_typeOfMember hc.2⟩, .inr ht.1.1⟩
  | subscript p value index =>
    cases hi : refusedIndex? index with
    | some m => simp [checkExpr, hi] at hc
    | none =>
      simp only [checkExpr, hi, Checked.issues_typed, Checked.issues_bind,
        List.append_eq_nil_iff] at hc
      simp only [checkExpr, hi, Checked.types_typed, Checked.types_bind, List.append_subset] at ht
      obtain ⟨hv, hx, hj⟩ := hc
      obtain ⟨⟨htv, htx, -⟩, -⟩ := ht
      obtain ⟨hav, hix⟩ := ne_void_of_typeOfElement hj
      simp only [Expr.parts, List.mem_cons, List.not_mem_nil, or_false] at hq
      rcases hq with rfl | rfl
      · exact ⟨⟨hv, hav⟩, .inr htv⟩
      · refine ⟨⟨hx, fun hvoid => ⟨_, htv (mem_types_self s scope value), ?_⟩⟩, .inr htx⟩
        exact Bool.of_not_eq_false fun hu => hix hu hvoid
  | ifExp p test body orelse =>
    simp only [checkExpr, Checked.issues_typed, Checked.issues_bind, List.append_eq_nil_iff] at hc
    simp only [checkExpr, Checked.types_typed, Checked.types_bind, List.append_subset] at ht
    obtain ⟨htest, hcond, hbody, horelse, -⟩ := hc
    obtain ⟨⟨tt, -, tb, te, -⟩, -⟩ := ht
    simp only [Expr.parts, List.mem_cons, List.not_mem_nil, or_false] at hq
    rcases hq with rfl | rfl | rfl
    · exact ⟨⟨htest, ne_void_of_judgeCondition hcond⟩, .inr tt⟩
    · exact ⟨⟨hbody, trivial⟩, .inr tb⟩
    · exact ⟨⟨horelse, trivial⟩, .inr te⟩
  | name p id => simp [Expr.parts] at hq
  | const p value => simp [Expr.parts] at hq
  | tuple p elts => simp [checkExpr] at hc
  | list p elts => simp [checkExpr] at hc
  | slice p lower upper step => simp [checkExpr] at hc

/-- Every use in an accepted expression is accepted, save those in references to macros. -/
theorem accepts_uses (hf : IsFree scope) {role : Role} (hr : role ≠ .text)
    (h : Accepts s scope types (role, e)) (ht : (checkExpr s scope e).types ⊆ types) :
    ∀ u ∈ e.uses role, u.1 ≠ .text → Accepts s scope types u := by
  intro u hu hne
  refine ((Expr.uses_induction (P := fun u => u.1 ≠ .text → AcceptsWithin s scope types u)
    (fun u hu hne => absurd hu hne) ?_ hr fun _ => ⟨h, .inr ht⟩) u hu hne).toAccepts
  intro v hv hp q hq _
  obtain ⟨ha, hw⟩ := hp hv
  rcases hw with hw | hw
  · simp [hw] at hq
  · exact acceptsWithin_parts hf ha.clean hw q hq

end Parts

section Quiet

/-! A judgement on types counts no requirement and visits no expression. -/

variable {e left right : Expr} {es : List Expr} {t l r : Ty}

@[simp] theorem quiet_judgeCondition (context : String) :
    (judgeCondition context e t).requires = 0 ∧ (judgeCondition context e t).types = [] := by
  unfold judgeCondition
  split
  · simp
  · split <;> simp

@[simp] theorem quiet_typeOfName (id : String) :
    (typeOfName s scope e id).requires = 0 ∧ (typeOfName s scope e id).types = [] := by
  unfold typeOfName
  split
  · simp
  · split
    · simp
    · split <;> simp

@[simp] theorem quiet_typeOfUnary (op : UnaryOp) :
    (typeOfUnary op e t).requires = 0 ∧ (typeOfUnary op e t).types = [] := by
  unfold typeOfUnary
  repeat' split
  all_goals simp

@[simp] theorem quiet_typeOfBinary (op : BinOp) :
    (typeOfBinary s left right op l r).requires = 0 ∧
      (typeOfBinary s left right op l r).types = [] := by
  unfold typeOfBinary
  repeat' split
  all_goals simp

@[simp] theorem quiet_judgeComparison (op : CmpOp) :
    (judgeComparison s e left right op l r).requires = 0 ∧
      (judgeComparison s e left right op l r).types = [] := by
  unfold judgeComparison
  repeat' split
  all_goals simp

@[simp] theorem quiet_judgeComparisons (ops : List CmpOp) (rs : List Ty) :
    (judgeComparisons s e left ops es l rs).requires = 0 ∧
      (judgeComparisons s e left ops es l rs).types = [] := by
  unfold judgeComparisons
  split <;> simp

@[simp] theorem quiet_typeOfChoice :
    (typeOfChoice s left right l r).requires = 0 ∧ (typeOfChoice s left right l r).types = [] := by
  unfold typeOfChoice
  repeat' split
  all_goals simp

@[simp] theorem quiet_typeOfMember (attr : String) :
    (typeOfMember s e attr t).requires = 0 ∧ (typeOfMember s e attr t).types = [] := by
  simp only [typeOfMember]
  split
  · simp
  · repeat' split
    all_goals simp

@[simp] theorem quiet_typeOfElement :
    (typeOfElement left right l r).requires = 0 ∧
      (typeOfElement left right l r).types = [] := by
  unfold typeOfElement
  repeat' split
  all_goals simp

@[simp] theorem quiet_judgeCount (sig : Signature) (count : Nat) :
    (judgeCount sig e count).requires = 0 ∧ (judgeCount sig e count).types = [] := by
  simp [judgeCount]

@[simp] theorem quiet_judgeArgument (name : String) (declared : Ty) :
    (judgeArgument s name declared e t).requires = 0 ∧
      (judgeArgument s name declared e t).types = [] := by
  simp [judgeArgument]

@[simp] theorem quiet_judgeLoopVariable :
    (judgeLoopVariable scope es).requires = 0 ∧ (judgeLoopVariable scope es).types = [] := by
  unfold judgeLoopVariable
  split <;> simp

@[simp] theorem quiet_judgeReceiver (m : Method) :
    (judgeReceiver s m e t).requires = 0 ∧ (judgeReceiver s m e t).types = [] := by
  unfold judgeReceiver
  split <;> simp

@[simp] theorem quiet_judgeBit (m : Method) (ts : List Ty) :
    (judgeBit s m e es t ts).requires = 0 ∧ (judgeBit s m e es t ts).types = [] := by
  unfold judgeBit
  split <;> simp

end Quiet

section Requirements

variable {e : Expr} {es : List Expr} {ds : List Ty}

private theorem requires_checkAll (h : ∀ e ∈ es, (checkExpr s scope e).requires = 0) :
    (checkAll s scope es).requires = 0 := by
  induction es with
  | nil => rfl
  | cons e es ih => simp_all [checkAll]

private theorem requires_checkConditions {context : String}
    (h : ∀ e ∈ es, (checkExpr s scope e).requires = 0) :
    (checkConditions s scope context es).requires = 0 := by
  induction es with
  | nil => rfl
  | cons e es ih => simp_all [checkConditions]

private theorem requires_checkArguments {name : String}
    (h : ∀ e ∈ es, (checkExpr s scope e).requires = 0) :
    (checkArguments s scope name ds es).requires = 0 := by
  induction es generalizing ds with
  | nil => cases ds <;> rfl
  | cons e es ih => cases ds <;> simp_all [checkArguments]

/-- Whether an expression demands something, as far as it shows by itself. -/
abbrev IsRequirement (e : Expr) : Prop := e.callName? = some Predicate.require.name

/-- What is accepted, requires nothing itself and has parts that require nothing requires nothing.
-/
theorem requires_eq_zero (hc : (checkExpr s scope e).issues = []) (he : ¬ IsRequirement e)
    (hp : ∀ q ∈ e.parts, (checkExpr s scope q.2).requires = 0) :
    (checkExpr s scope e).requires = 0 := by
  cases e with
  | call p func args =>
    cases func with
    | name q id =>
      obtain ⟨pred, hid, hlen, -, -⟩ := clean_call_name hc
      have hreq : pred ≠ .require := by
        rintro rfl
        exact he (congrArg some (Predicate.name_of_ofName? hid).symm)
      simp only [checkExpr, hid, hlen, hreq, ne_eq, not_true_eq_false, if_false]
      split
      · simp
      · split
        · simp
        · rename_i ht
          have hmacro : id ≠ Predicate.textMacro.name := by
            rintro rfl
            exact ht (Option.some.inj (hid.symm.trans (Predicate.ofName?_name .textMacro)))
          simp only [Expr.parts, if_neg hmacro, List.forall_mem_map] at hp
          simp [requires_checkArguments hp]
    | member q receiver attr =>
      obtain ⟨m, hid, -, -, hlen, -⟩ := clean_call_member hc
      simp only [Expr.parts, List.forall_mem_cons, List.forall_mem_map] at hp
      simp [checkExpr, hid, hlen, hp.1, requires_checkArguments hp.2]
    | _ => simp [checkExpr] at hc
  | subscript p value index =>
    cases hi : refusedIndex? index <;> simp_all [checkExpr, Expr.parts]
  | compare p left ops comparators => simp_all [checkExpr, Expr.parts, requires_checkAll]
  | boolOp p op values => simp_all [checkExpr, Expr.parts, requires_checkConditions]
  | const p value => rfl
  | _ => simp_all [checkExpr, Expr.parts]

/-- An accepted expression with a requirement has a use that is one. -/
theorem exists_requirement (hf : IsFree scope) {e : Expr} {role : Role} (hr : role ≠ .text)
    (hc : (checkExpr s scope e).issues = []) (h : (checkExpr s scope e).requires ≠ 0) :
    ∃ u ∈ e.uses role, u.1 ≠ .text ∧ IsRequirement u.2 := by
  by_cases he : IsRequirement e
  · exact ⟨(role, e), Expr.self_mem_uses role e, hr, he⟩
  · obtain ⟨q, hq, hreq⟩ : ∃ q ∈ e.parts, (checkExpr s scope q.2).requires ≠ 0 := by
      refine Classical.byContradiction fun hnone => h (requires_eq_zero hc he fun q hq => ?_)
      exact Classical.byContradiction fun hq' => hnone ⟨q, hq, hq'⟩
    have hqc := (acceptsWithin_parts hf hc (List.Subset.refl _) q hq).clean
    have := Expr.sizeOf_lt_of_mem_parts hq
    obtain ⟨u, hu, hu'⟩ := exists_requirement hf (Expr.ne_text_of_mem_parts hq) hqc hreq
    obtain ⟨texts, -, heq⟩ := Expr.uses_eq role e
    refine ⟨u, heq ▸ List.mem_cons_of_mem _ (List.mem_append_right _ ?_), hu'⟩
    exact List.mem_flatMap.2 ⟨q, hq, hu⟩
termination_by sizeOf e

end Requirements

end Verification
end ValidUsage
