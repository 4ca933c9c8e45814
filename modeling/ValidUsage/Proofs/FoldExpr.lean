import ValidUsage.Proofs.Scope

/-!
# Folding keeps the values of expressions

Where an expression has a value, its folded form has the same one. Every rule of folding has a lemma
of its own; `eval_fold` puts them together. The environment of the folded expression lacks the names
whose values are known, and it may have names that a branch has left behind which replaced its `if`;
the expressions that follow read neither. `Simulates` is this relation of the two environments.
-/

namespace ValidUsage

variable {α : Type}

/-! ## Values -/

namespace Value

/-- Values are all truth values if they can be read as such. -/
private theorem mapM_bool?_eq_some {vs : List (Value α)} {bs : List Bool} :
    vs.mapM bool? = some bs ↔ vs = bs.map bool := by
  induction vs generalizing bs with
  | nil => cases bs <;> simp
  | cons v vs ih =>
    rw [List.mapM_cons]
    cases v with
    | other a => cases bs <;> simp [bool?]
    | bool c =>
      simp only [bool?, Option.pure_def, Option.bind_eq_bind, Option.bind_some,
        Option.bind_eq_some_iff, Option.some.injEq, ih]
      cases bs with
      | nil => simp
      | cons d ds =>
        simp only [List.cons.injEq, List.map_cons, bool.injEq]
        constructor
        · rintro ⟨cs, rfl, rfl, rfl⟩
          exact ⟨rfl, rfl⟩
        · rintro ⟨rfl, rfl⟩
          exact ⟨ds, rfl, rfl, rfl⟩

/-- Values are joined if they are truth values. -/
theorem joined_eq_some {op : BoolOp} {vs : List (Value α)} {r : Value α} :
    joined op vs = some r ↔ ∃ bs, vs = bs.map bool ∧ r = bool (op.join bs) := by
  simp only [joined, Option.map_eq_some_iff, mapM_bool?_eq_some]
  constructor
  · rintro ⟨bs, hvs, hr⟩
    exact ⟨bs, hvs, hr.symm⟩
  · rintro ⟨bs, hvs, hr⟩
    exact ⟨bs, hvs, hr.symm⟩

end Value

namespace BoolOp

/-- What is joined is decided by one value that decides. -/
theorem join_of_mem {op : BoolOp} {bs : List Bool} (h : (op == .or) ∈ bs) :
    op.join bs = (op == .or) := by
  cases op with
  | and => exact List.all_eq_false.mpr ⟨false, h, by simp⟩
  | or => exact List.any_eq_true.mpr ⟨true, h, rfl⟩

/-- A value that does not decide adds nothing. -/
theorem join_cons_of_ne {op : BoolOp} {c : Bool} {bs : List Bool} (h : c ≠ (op == .or)) :
    op.join (c :: bs) = op.join bs := by
  cases op with
  | and => cases c <;> simp_all [join]
  | or => cases c <;> simp_all [join]

/-- One more value is joined with the others. -/
theorem join_cons_congr {op : BoolOp} {c : Bool} {bs ds : List Bool} (h : op.join bs = op.join ds) :
    op.join (c :: bs) = op.join (c :: ds) := by
  cases op with
  | and => simp_all [join]
  | or => simp_all [join]

/-- One value is joined to itself. -/
theorem join_singleton (op : BoolOp) (c : Bool) : op.join [c] = c := by
  cases op <;> simp [join]

/-- Without values, the one that does not decide is left. -/
theorem join_nil (op : BoolOp) : op.join [] = (op == .and) := by
  cases op <;> simp [join]

end BoolOp

/-! ## Expressions -/

namespace Expr

variable {I : Interpretation α} {env : Env α}

/-- A literal truth value stands for itself. -/
theorem eval_of_bool? {e : Expr} {c : Bool} (h : e.bool? = some c) :
    e.eval I env = some (.bool c) := by
  unfold bool? at h
  split at h
  · obtain rfl := Option.some.inj h
    simp [eval]
  · cases h

/-- A literal truth value stands for itself. -/
@[simp] theorem eval_ofBool (p : Pos) (c : Bool) : (ofBool p c).eval I env = some (.bool c) := by
  simp [ofBool, eval]

/-- A known condition of a list has its value among theirs. -/
private theorem mem_of_evalList {es : List Expr} {bs : List Bool} {c : Bool}
    (h : evalList I env es = some (bs.map .bool)) (hc : es.any fun e => e.bool? == some c) :
    c ∈ bs := by
  induction es generalizing bs with
  | nil => simp at hc
  | cons e es ih =>
    obtain ⟨v, ws, hv, hws, hvs⟩ := evalList_cons_eq_some.mp h
    obtain ⟨d, ds, rfl, rfl, rfl⟩ := List.map_eq_cons_iff.mp hvs
    rw [List.any_cons, Bool.or_eq_true] at hc
    rcases hc with hc | hc
    · rw [eval_of_bool? (beq_iff_eq.mp hc)] at hv
      obtain rfl : c = d := by simpa using hv
      exact List.mem_cons_self
    · exact List.mem_cons_of_mem _ (ih hws hc)

/-- Known conditions that do not decide may be left out. -/
private theorem join_of_filter {op : BoolOp} {es : List Expr} {bs : List Bool}
    (h : evalList I env es = some (bs.map .bool))
    (hn : ¬ es.any fun e => e.bool? == some (op == .or)) :
    ∃ ds, evalList I env (es.filter fun e => e.bool?.isNone) = some (ds.map .bool) ∧
      op.join ds = op.join bs := by
  induction es generalizing bs with
  | nil => exact ⟨bs, h, rfl⟩
  | cons e es ih =>
    obtain ⟨v, ws, hv, hws, hvs⟩ := evalList_cons_eq_some.mp h
    obtain ⟨c, cs, rfl, rfl, rfl⟩ := List.map_eq_cons_iff.mp hvs
    rw [List.any_cons, Bool.or_eq_true, not_or] at hn
    obtain ⟨ds, hds, hjoin⟩ := ih hws hn.2
    cases he : e.bool? with
    | none =>
      refine ⟨c :: ds, ?_, BoolOp.join_cons_congr hjoin⟩
      rw [List.filter_cons_of_pos (by simp [he])]
      exact evalList_cons_eq_some.mpr ⟨.bool c, ds.map .bool, hv, hds, rfl⟩
    | some d =>
      rw [eval_of_bool? he] at hv
      obtain rfl : d = c := by simpa using hv
      have hne : d ≠ (op == .or) := by
        intro heq
        exact hn.1 (by simp [he, heq])
      rw [List.filter_cons_of_neg (by simp [he]), BoolOp.join_cons_of_ne hne]
      exact ⟨ds, hds, hjoin⟩

/-- Joined conditions keep their value when they are folded. -/
theorem eval_foldBoolOp {p : Pos} {op : BoolOp} {es : List Expr} {vs : List (Value α)}
    {r : Value α} (h : evalList I env es = some vs) (hr : Value.joined op vs = some r) :
    (foldBoolOp p op es).eval I env = some r := by
  obtain ⟨bs, rfl, rfl⟩ := Value.joined_eq_some.mp hr
  unfold foldBoolOp
  by_cases hany : (es.any fun v => v.bool? == some (op == .or)) = true
  · rw [if_pos hany, eval_ofBool, BoolOp.join_of_mem (mem_of_evalList h hany)]
  · rw [if_neg hany]
    obtain ⟨ds, hds, hjoin⟩ := join_of_filter h hany
    rw [← hjoin]
    split
    · next hnil =>
      rw [hnil] at hds
      obtain rfl : ds = [] := by simpa [evalList] using hds
      rw [eval_ofBool, BoolOp.join_nil]
    · next e hone =>
      rw [hone] at hds
      obtain ⟨v, ws, hv, hws, hvs⟩ := evalList_cons_eq_some.mp hds
      obtain ⟨c, cs, rfl, rfl, rfl⟩ := List.map_eq_cons_iff.mp hvs
      obtain rfl : cs = [] := by simpa [evalList] using hws
      rw [hv, BoolOp.join_singleton]
    · simp only [eval, hds, Option.bind_some]
      exact Value.joined_eq_some.mpr ⟨ds, rfl, rfl⟩

/-- A negation keeps its value when it is folded. -/
theorem eval_foldNot {p : Pos} {e : Expr} {c : Bool} (h : e.eval I env = some (.bool c)) :
    (foldNot p e).eval I env = some (.bool !c) := by
  unfold foldNot
  split
  · next d hd =>
    rw [eval_of_bool? hd] at h
    obtain rfl : d = c := by simpa using h
    exact eval_ofBool p _
  · split
    · next inner _ =>
      simp only [eval, if_true, Option.bind_eq_some_iff] at h
      obtain ⟨v, hv, hn⟩ := h
      obtain ⟨d, rfl, hd⟩ := Value.negated_eq_some.mp hn
      obtain rfl : c = !d := by simpa using hd
      rw [hv, Bool.not_not]
    · simp [eval, h, Value.negated, Value.bool?]

/-- A comparison keeps its value when it is folded. -/
theorem eval_foldCompare {p : Pos} {left : Expr} {ops : List CmpOp} {comparators : List Expr}
    {v : Value α} {vs : List (Value α)} (hl : left.eval I env = some v)
    (hr : evalList I env comparators = some vs) :
    (foldCompare p left ops comparators).eval I env = I.comparison ops (v :: vs) := by
  have hkeep : (compare p left ops comparators).eval I env = I.comparison ops (v :: vs) := by
    simp [eval, hl, hr]
  unfold foldCompare
  split
  · next right =>
    split
    · next c d hc hd =>
      rw [← hkeep]
      simp [eval, evalList, eval_of_bool? hc, eval_of_bool? hd, Interpretation.comparison]
    · exact hkeep
  · next right =>
    split
    · next c d hc hd =>
      rw [← hkeep]
      simp [eval, evalList, eval_of_bool? hc, eval_of_bool? hd, Interpretation.comparison]
    · exact hkeep
  · exact hkeep

end Expr

/-! ## Calls that a build decides -/

/-- What folding relies on: an interpretation that fits, and names apart from those of the build. -/
structure Grounds (I : Interpretation α) (b : Build) (bound : List String) : Prop where
  /-- The interpretation fits the build. -/
  fits : I.Fits b
  /-- No name is that of an enumeration value. -/
  value : ∀ id ∈ bound, b.availability.isEnumValue id = false
  /-- No name is that of the condition on an extension. -/
  predicate : Predicate.isExtEnabled.name ∉ bound
  /-- No name is that of an extension which stands for a feature. -/
  extension : ∀ feature ext, b.config.legacyAlias? feature = some ext → ext ∉ bound

namespace Expr

variable {I : Interpretation α} {b : Build} {bound visible : List String} {env : Env α}

/-- A name that is not bound stands for what the interpretation says. -/
theorem name_of_eval {p : Pos} {id : String} {v : Value α} (henv : env id = none)
    (h : (name p id).eval I env = some v) : I.name id = some v := by
  simp only [eval] at h
  split at h
  · cases h
  · simpa [henv] using h

/-- A name that is not bound, other than that of a requirement, stands for what the interpretation
says. -/
theorem eval_name {p : Pos} {id : String} (hid : id ≠ Predicate.require.name)
    (henv : env id = none) : (name p id).eval I env = I.name id := by
  simp [eval, hid, henv]

/-- The argument of a call that refers by name is that name, which is not bound. -/
theorem argument_of_mayStand {p : Pos} {func : Expr} {args : List Expr} {id : String}
    (h : (call p func args).mayStand bound visible) (hone : func.arity? = some 1)
    (hrefers : func.refersByName) (hid : Build.argumentName? args = some id) :
    id ∉ bound ∧ ∃ q, args = [name q id] := by
  simp only [mayStand, hone, hrefers, Option.all_some, Bool.and_eq_true, beq_iff_eq,
    Bool.not_true, Bool.false_or, List.all_eq_true] at h
  obtain ⟨⟨_, hlength⟩, hargs⟩ := h
  obtain ⟨arg, rfl⟩ := List.length_eq_one_iff.mp hlength.symm
  simp only [Build.argumentName?, List.head?_cons, Option.bind_some] at hid
  have hout := hargs arg List.mem_cons_self
  rw [hid, Option.all_some] at hout
  cases arg with
  | name q x =>
    obtain rfl : x = id := by simpa [name?] using hid
    exact ⟨by simpa using hout, q, rfl⟩
  | _ => simp [name?] at hid

/-- A call by name of an argument that is a name asks a predicate. -/
private theorem asks_of_eval {p q r : Pos} {k : Predicate} {id : String} {v : Value α}
    (hk : env k.name = none) (hid : env id = none)
    (h : (call p (name q k.name) [name r id]).eval I env = some v) :
    ∃ u, I.name id = some u ∧ I.asks k [u] = some v := by
  obtain ⟨f, vs, hf, hvs, hcall⟩ := eval_call_eq_some.mp h
  obtain ⟨u, hu, rfl⟩ := evalList_singleton_eq_some.mp hvs
  refine ⟨u, name_of_eval hid hu, ?_⟩
  rw [Interpretation.asks, name_of_eval hk hf]
  exact hcall

/-- A call on a receiver of an argument that is a name asks a predicate. -/
private theorem asksOf_of_eval {p q r : Pos} {k : Method} {receiver : Expr} {id : String}
    {v : Value α} (hid : env id = none)
    (h : (call p (member q receiver k.name) [name r id]).eval I env = some v) :
    ∃ w u, I.name id = some u ∧ I.asksOf k w [u] = some v := by
  obtain ⟨f, vs, hf, hvs, hcall⟩ := eval_call_eq_some.mp h
  obtain ⟨u, hu, rfl⟩ := evalList_singleton_eq_some.mp hvs
  rw [eval, Option.bind_eq_some_iff] at hf
  obtain ⟨w, _, hf⟩ := hf
  refine ⟨w, u, name_of_eval hid hu, ?_⟩
  rw [Interpretation.asksOf, hf]
  exact hcall

/-- A literal number stands for what the interpretation says. -/
private theorem const_of_int? {e : Expr} {n : Nat} {v : Value α} (hn : e.int? = some n)
    (h : e.eval I env = some v) : I.const (.int n) = some v := by
  unfold int? at hn
  split at hn
  · obtain rfl := Option.some.inj hn
    simpa [eval] using h
  · cases hn

/-- A call by name that a build decides has the value that the build gives it. -/
theorem eval_of_callCondition? {p q : Pos} {k : Predicate} {args : List Expr} {c : Bool}
    {v : Value α} (hI : Grounds I b bound) (henv : ∀ id ∉ bound, env id = none)
    (hs : (call p (name q k.name) args).mayStand bound visible)
    (halias : b.aliasOfFeature? (name q k.name) args = none)
    (hc : b.callCondition? k args = some c)
    (h : (call p (name q k.name) args).eval I env = some v) : v = .bool c := by
  have hk : k.name ∉ bound := by
    simp only [mayStand, name?, Option.all_some, Bool.and_eq_true] at hs
    simpa using hs.1.1.1
  -- A predicate that refers by name has one argument, and that argument is a name of the API.
  have hnamed : ∀ id, (name q k.name).refersByName → (name q k.name).arity? = some 1 →
      Build.argumentName? args = some id →
      ∃ u, I.name id = some u ∧ I.asks k [u] = some v := by
    intro id hrefers hone hid
    obtain ⟨hout, r, rfl⟩ := argument_of_mayStand hs hone hrefers hid
    exact asks_of_eval (henv _ hk) (henv _ hout) h
  cases k with
  | isVersion =>
    simp only [Build.callCondition?] at hc
    split at hc
    · next major minor =>
      simp only [Option.bind_eq_bind, Option.bind_eq_some_iff, Option.pure_def,
        Option.some.injEq] at hc
      obtain ⟨m, hm, n, hn, rfl⟩ := hc
      obtain ⟨f, vs, hf, hvs, hcall⟩ := eval_call_eq_some.mp h
      obtain ⟨u, ws, hu, hws, rfl⟩ := evalList_cons_eq_some.mp hvs
      obtain ⟨w, hw, rfl⟩ := evalList_singleton_eq_some.mp hws
      refine hI.fits.version (const_of_int? hm hu) (const_of_int? hn hw) ?_
      rw [Interpretation.asks, name_of_eval (henv _ hk) hf]
      exact hcall
    · cases hc
  | isExtEnabled =>
    simp only [Build.callCondition?, Option.bind_eq_bind, Option.bind_eq_some_iff] at hc
    obtain ⟨id, hid, hc⟩ := hc
    obtain ⟨u, hu, hask⟩ := hnamed id rfl rfl hid
    split at hc
    · cases hc
    · next hext =>
      obtain rfl := Option.some.inj hc
      exact hI.fits.extension (by simpa using hext) hu hask
  | isFeatureEnabled =>
    simp only [Build.callCondition?, Option.bind_eq_bind, Option.bind_eq_some_iff] at hc
    obtain ⟨id, hid, hc⟩ := hc
    obtain ⟨u, hu, hask⟩ := hnamed id rfl rfl hid
    split at hc
    · cases hc
    · next hfeature =>
      obtain rfl := Option.some.inj hc
      have hnone : b.config.legacyAlias? id = none := by
        simpa [Build.aliasOfFeature?, name?, hid, hfeature] using halias
      exact hI.fits.feature (by simpa using hfeature) hnone hu hask
  | hasPnext =>
    simp only [Build.callCondition?, Option.bind_eq_bind, Option.bind_eq_some_iff,
      Build.structCondition?] at hc
    obtain ⟨id, hid, hc⟩ := hc
    obtain ⟨u, hu, hask⟩ := hnamed id rfl rfl hid
    split at hc
    · cases hc
    · next hstruct =>
      obtain rfl := Option.some.inj hc
      exact hI.fits.chain (by simpa using hstruct) hu hask
  | require | pnext | arrayIndex | externallySynchronized | textMacro =>
    simp [Build.callCondition?] at hc

/-- A call on a receiver that a build decides has the value that the build gives it. -/
theorem eval_of_methodCondition? {p q : Pos} {receiver : Expr} {k : Method} {args : List Expr}
    {c : Bool} {v : Value α} (hI : Grounds I b bound) (henv : ∀ id ∉ bound, env id = none)
    (hs : (call p (member q receiver k.name) args).mayStand bound visible)
    (hc : b.methodCondition? k args = some c)
    (h : (call p (member q receiver k.name) args).eval I env = some v) : v = .bool c := by
  have hnamed : ∀ id, (member q receiver k.name).refersByName →
      (member q receiver k.name).arity? = some 1 → Build.argumentName? args = some id →
      ∃ w u, I.name id = some u ∧ I.asksOf k w [u] = some v := by
    intro id hrefers hone hid
    obtain ⟨hout, r, rfl⟩ := argument_of_mayStand hs hone hrefers hid
    exact asksOf_of_eval (henv _ hout) h
  cases k with
  | hasPnext =>
    simp only [Build.methodCondition?, Option.bind_eq_bind, Option.bind_eq_some_iff,
      Build.structCondition?] at hc
    obtain ⟨id, hid, hc⟩ := hc
    obtain ⟨w, u, hu, hask⟩ := hnamed id rfl rfl hid
    split at hc
    · cases hc
    · next hstruct =>
      obtain rfl := Option.some.inj hc
      exact hI.fits.chainOf (by simpa using hstruct) hu hask
  | hasBit =>
    simp only [Build.methodCondition?, Option.bind_eq_bind, Option.bind_eq_some_iff] at hc
    obtain ⟨id, hid, hc⟩ := hc
    obtain ⟨w, u, hu, hask⟩ := hnamed id rfl rfl hid
    split at hc
    · cases hc
    · next hbit =>
      obtain rfl := Option.some.inj hc
      exact hI.fits.bit (by simpa using hbit) hu hask
  | pnext | any | none | valid | createInfo | graphicsCreateInfo | computeCreateInfo
  | rayTracingCreateInfo => simp [Build.methodCondition?] at hc

/-- A call that a build decides has the value that the build gives it. -/
theorem eval_of_condition? {p : Pos} {func : Expr} {args : List Expr} {c : Bool} {v : Value α}
    (hI : Grounds I b bound) (henv : ∀ id ∉ bound, env id = none)
    (hs : (call p func args).mayStand bound visible)
    (halias : b.aliasOfFeature? func args = none) (hc : b.condition? func args = some c)
    (h : (call p func args).eval I env = some v) : v = .bool c := by
  cases func with
  | name q id =>
    simp only [Build.condition?, Option.bind_eq_bind, Option.bind_eq_some_iff] at hc
    obtain ⟨k, hk, hc⟩ := hc
    obtain rfl := Predicate.name_of_ofName? hk
    exact eval_of_callCondition? hI henv hs halias hc h
  | member q receiver attr =>
    simp only [Build.condition?, Option.bind_eq_bind, Option.bind_eq_some_iff] at hc
    obtain ⟨k, hk, hc⟩ := hc
    obtain rfl := Method.name_of_ofName? hk
    exact eval_of_methodCondition? hI henv hs hc h
  | _ => simp [Build.condition?] at hc

/-- A comparison with an enumeration value that the build lacks has the value that the build gives
it. -/
theorem eval_of_missingValue? {p : Pos} {left : Expr} {ops : List CmpOp} {comparators : List Expr}
    {c : Bool} {v : Value α} (hI : Grounds I b bound) (henv : ∀ id ∉ bound, env id = none)
    (hc : missingValue? b left ops comparators = some c)
    (h : (compare p left ops comparators).eval I env = some v) : v = .bool c := by
  simp only [eval, Option.bind_eq_bind, Option.bind_eq_some_iff] at h
  obtain ⟨u, hu, ws, hws, h⟩ := h
  -- A side that the build lacks is a name that the statement does not bind.
  have hlacks : ∀ {e : Expr} {w : Value α}, b.lacksValue e = true → e.eval I env = some w →
      ∃ x, b.availability.isEnumValue x = true ∧
        b.availability.enumValueDefined b.config x = false ∧ I.name x = some w := by
    intro e w he hw
    cases e with
    | name q x =>
      simp only [Build.lacksValue, name?, Option.any_some, Bool.and_eq_true,
        Bool.not_eq_true'] at he
      refine ⟨x, he.1, he.2, name_of_eval (henv x ?_) hw⟩
      intro hx
      rw [hI.value x hx] at he
      cases he.1
    | _ => simp [Build.lacksValue, name?] at he
  have hvalue : ∀ {w : Value α}, (b.lacksValue left || comparators.any b.lacksValue) = true →
      ws = [w] → comparators.length = 1 →
      (I.comparison [.eq] [u, w] = some v → v = .bool false) ∧
      (I.comparison [.notEq] [u, w] = some v → v = .bool true) := by
    rintro w hlack rfl hlength
    obtain ⟨right, rfl⟩ := List.length_eq_one_iff.mp hlength
    obtain ⟨w', hw, hww⟩ := evalList_singleton_eq_some.mp hws
    obtain rfl : w = w' := by simpa using hww
    rw [List.any_cons, List.any_nil, Bool.or_false, Bool.or_eq_true] at hlack
    rcases hlack with hl | hr
    · obtain ⟨x, hx, hd, hname⟩ := hlacks hl hu
      exact hI.fits.value hx hd hname (Or.inl rfl)
    · obtain ⟨x, hx, hd, hname⟩ := hlacks hr hw
      exact hI.fits.value hx hd hname (Or.inr rfl)
  unfold missingValue? at hc
  split at hc
  · next right =>
    obtain ⟨w, _, rfl⟩ := evalList_singleton_eq_some.mp hws
    split at hc
    · next hlack =>
      obtain rfl := Option.some.inj hc
      exact (hvalue (by simpa using hlack) rfl rfl).1 h
    · cases hc
  · next right =>
    obtain ⟨w, _, rfl⟩ := evalList_singleton_eq_some.mp hws
    split at hc
    · next hlack =>
      obtain rfl := Option.some.inj hc
      exact (hvalue (by simpa using hlack) rfl rfl).2 h
    · cases hc
  · cases hc

end Expr

/-! ## Every expression -/

/-- Whether an environment of a folded statement stands for that of the statement: they agree on the
visible names, but for those whose values are known. -/
structure Simulates (bound visible assigned : List String) (names : FoldedNames)
    (env env' : Env α) : Prop where
  /-- A name whose value is known is a visible one of an assignment, and has that value. -/
  known : ∀ {id c}, names.get? id = some c →
    id ∈ assigned ∧ id ∈ visible ∧ env id = some (.bool c)
  /-- The other visible names have the same value in both. -/
  agree : ∀ {id}, id ∈ visible → names.get? id = none → env' id = env id
  /-- Names that the statement does not bind have no value in either. -/
  outside : ∀ {id}, id ∉ bound → id ∉ visible ∧ env id = none ∧ env' id = none

namespace Simulates

variable {bound visible assigned : List String} {names : FoldedNames} {env env' : Env α}

/-- The value of a name that the statement does not bind is not known. -/
theorem get?_outside (hs : Simulates bound visible assigned names env env') {id : String}
    (hid : id ∉ bound) : names.get? id = none := by
  cases hget : names.get? id with
  | none => rfl
  | some c => exact absurd (hs.known hget).2.1 (hs.outside hid).1

end Simulates

namespace Expr

variable {I : Interpretation α} {b : Build} {bound visible assigned : List String}
  {names : FoldedNames} {env env' : Env α}

/-- A name keeps its value when it is folded. -/
theorem eval_foldName (hs : Simulates bound visible assigned names env env') {p : Pos}
    {id : String} {v : Value α} (hid : (name p id).mayStand bound visible)
    (h : (name p id).eval I env = some v) : (foldName names p id).eval I env' = some v := by
  simp only [eval] at h
  split at h
  · cases h
  · next hrequire =>
    unfold foldName
    cases hget : names.get? id with
    | some c =>
      obtain ⟨_, _, hc⟩ := hs.known hget
      rw [eval_ofBool]
      simpa [hc] using h
    | none =>
      rw [eval, if_neg hrequire]
      by_cases hin : id ∈ bound
      · simp only [mayStand, Bool.and_eq_true, Bool.or_eq_true, Bool.not_eq_true'] at hid
        have hvisible : id ∈ visible := by simpa [hin] using hid.2
        rw [hs.agree hvisible hget]
        exact h
      · obtain ⟨_, henv, henv'⟩ := hs.outside hin
        rw [henv']
        rwa [henv] at h

/-- The condition on the extension that stands for a feature has the value of that on the feature.
-/
theorem eval_foldAlias (hI : Grounds I b bound)
    (hs : Simulates bound visible assigned names env env') {p : Pos} {func : Expr}
    {args : List Expr} {ext : String} {v : Value α}
    (hstand : (call p func args).mayStand bound visible)
    (halias : b.aliasOfFeature? func args = some ext)
    (h : (call p func args).eval I env = some v) :
    (foldAlias b names p ext args).eval I env' = some v := by
  cases func with
  | name q id =>
    simp only [Build.aliasOfFeature?, name?, Option.some.injEq, Option.bind_eq_bind] at halias
    split at halias
    · next hname =>
      obtain rfl := hname
      simp only [Option.bind_eq_some_iff] at halias
      obtain ⟨feature, hfeature, halias⟩ := halias
      split at halias
      · cases halias
      · next hlacks =>
        obtain ⟨hout, r, rfl⟩ := argument_of_mayStand hstand rfl rfl hfeature
        have hk : Predicate.isFeatureEnabled.name ∉ bound := by
          simp only [mayStand, name?, Option.all_some, Bool.and_eq_true] at hstand
          simpa using hstand.1.1.1
        obtain ⟨u, hu, hask⟩ := asks_of_eval (hs.outside hk).2.1 (hs.outside hout).2.1 h
        obtain ⟨w, hw, hask⟩ := hI.fits.legacy (by simpa using hlacks) halias hu hask
        have hext := hI.extension feature ext halias
        unfold foldAlias
        by_cases hin : b.config.hasExtension ext = true
        · rw [if_pos hin, foldName, hs.get?_outside hI.predicate, foldName, hs.get?_outside hext]
          rw [Interpretation.asks, Option.bind_eq_some_iff] at hask
          obtain ⟨f, hf, hcall⟩ := hask
          refine eval_call_eq_some.mpr ⟨f, [w], ?_, ?_, hcall⟩
          · rw [eval_name (by decide) (hs.outside hI.predicate).2.2]
            exact hf
          · refine evalList_singleton_eq_some.mpr ⟨w, ?_, rfl⟩
            have hne : ext ≠ Predicate.require.name := by
              rintro rfl
              rw [hI.fits.require] at hw
              cases hw
            rw [eval_name hne (hs.outside hext).2.2]
            exact hw
        · rw [if_neg hin, eval_ofBool, hI.fits.extension (by simpa using hin) hw hask]
    · cases halias
  | _ => simp [Build.aliasOfFeature?, name?] at halias

mutual

/-- An expression keeps its value when it is folded. -/
theorem eval_fold (hI : Grounds I b bound)
    (hs : Simulates bound visible assigned names env env') : ∀ (e : Expr) {v : Value α},
      e.isScoped bound visible → e.eval I env = some v → (e.fold b names).eval I env' = some v
  | name p id, v, hscoped, h => by
    simp only [isScoped, walk, List.all_cons, List.all_nil, Bool.and_true] at hscoped
    simpa only [fold] using eval_foldName hs hscoped h
  | const p c, v, _, h => by
    rw [fold]
    cases c <;> simpa only [eval] using h
  | boolOp p op values, v, hscoped, h => by
    simp only [isScoped, walk, List.all_cons, Bool.and_eq_true] at hscoped
    rw [eval, Option.bind_eq_some_iff] at h
    obtain ⟨vs, hvs, hjoin⟩ := h
    rw [fold]
    exact eval_foldBoolOp (evalList_fold hI hs values hscoped.2 hvs) hjoin
  | binary p left op right, v, hscoped, h => by
    simp only [isScoped, walk, List.all_cons, List.all_append, Bool.and_eq_true] at hscoped
    simp only [eval, Option.bind_eq_bind, Option.bind_eq_some_iff] at h
    obtain ⟨u, hu, w, hw, h⟩ := h
    have hleft := eval_fold hI hs left hscoped.2.1 hu
    have hright := eval_fold hI hs right hscoped.2.2 hw
    simp only [fold, eval, hleft, hright, Option.bind_eq_bind, Option.bind_some]
    exact h
  | unary p op operand, v, hscoped, h => by
    simp only [isScoped, walk, List.all_cons, Bool.and_eq_true] at hscoped
    rw [eval, Option.bind_eq_some_iff] at h
    obtain ⟨u, hu, h⟩ := h
    have hoperand := eval_fold hI hs operand hscoped.2 hu
    rw [fold]
    split
    · next hnot =>
      rw [if_pos hnot] at h
      obtain ⟨c, rfl, rfl⟩ := Value.negated_eq_some.mp h
      exact eval_foldNot hoperand
    · next hnot =>
      rw [if_neg hnot] at h
      rw [eval, hoperand, Option.bind_some, if_neg hnot]
      exact h
  | compare p left ops comparators, v, hscoped, h => by
    rw [fold]
    split
    · next c hc =>
      have henv : ∀ id ∉ bound, env id = none := fun id hid => (hs.outside hid).2.1
      rw [eval_of_missingValue? hI henv hc h, eval_ofBool]
    · simp only [isScoped, walk, List.all_cons, List.all_append, Bool.and_eq_true] at hscoped
      simp only [eval, Option.bind_eq_bind, Option.bind_eq_some_iff] at h
      obtain ⟨u, hu, ws, hws, h⟩ := h
      have hleft := eval_fold hI hs left hscoped.2.1 hu
      have hright := evalList_fold hI hs comparators hscoped.2.2 hws
      rw [eval_foldCompare hleft hright]
      exact h
  | call p func args, v, hscoped, h => by
    simp only [isScoped, walk, List.all_cons, List.all_append, Bool.and_eq_true] at hscoped
    obtain ⟨hstand, hfunc, hargs⟩ := hscoped
    rw [fold]
    split
    · next ext halias => exact eval_foldAlias hI hs hstand halias h
    · next halias =>
      split
      · next c hc =>
        have henv : ∀ id ∉ bound, env id = none := fun id hid => (hs.outside hid).2.1
        rw [eval_of_condition? hI henv hstand halias hc h, eval_ofBool]
      · obtain ⟨f, vs, hf, hvs, hcall⟩ := eval_call_eq_some.mp h
        exact eval_call_eq_some.mpr ⟨f, vs, eval_fold hI hs func hfunc hf,
          evalList_fold hI hs args hargs hvs, hcall⟩
  | member p value attr, v, hscoped, h => by
    simp only [isScoped, walk, List.all_cons, Bool.and_eq_true] at hscoped
    rw [eval, Option.bind_eq_some_iff] at h
    obtain ⟨u, hu, h⟩ := h
    rw [fold, eval, eval_fold hI hs value hscoped.2 hu, Option.bind_some]
    exact h
  | subscript p value index, v, hscoped, h => by
    simp only [isScoped, walk, List.all_cons, List.all_append, Bool.and_eq_true] at hscoped
    simp only [eval, Option.bind_eq_bind, Option.bind_eq_some_iff] at h
    obtain ⟨u, hu, w, hw, h⟩ := h
    have hvalue := eval_fold hI hs value hscoped.2.1 hu
    have hindex := eval_fold hI hs index hscoped.2.2 hw
    simp only [fold, eval, hvalue, hindex, Option.bind_eq_bind, Option.bind_some]
    exact h
  | ifExp p test body orelse, v, hscoped, h => by
    simp only [isScoped, walk, List.all_cons, List.all_append, Bool.and_eq_true] at hscoped
    obtain ⟨_, htest, hbody, horelse⟩ := hscoped
    simp only [eval, Option.bind_eq_some_iff] at h
    obtain ⟨c, ⟨u, hu, hc⟩, h⟩ := h
    obtain rfl := Value.bool?_eq_some.mp hc
    have hfolded := eval_fold hI hs test htest hu
    have hchosen : (if c then (body.fold b names).eval I env'
        else (orelse.fold b names).eval I env') = some v := by
      cases c with
      | true => exact eval_fold hI hs body hbody h
      | false => exact eval_fold hI hs orelse horelse h
    rw [fold]
    split
    · next htrue =>
      obtain rfl : true = c := by simpa [eval_of_bool? htrue] using hfolded
      exact hchosen
    · next hfalse =>
      obtain rfl : false = c := by simpa [eval_of_bool? hfalse] using hfolded
      exact hchosen
    · simpa only [eval, hfolded, Option.bind_some, Value.bool?] using hchosen
  | tuple p elts, v, _, h | list p elts, v, _, h | slice p l u s, v, _, h => by
    simp [eval] at h

/-- Expressions keep their values when they are folded. -/
theorem evalList_fold (hI : Grounds I b bound)
    (hs : Simulates bound visible assigned names env env') :
    ∀ (es : List Expr) {vs : List (Value α)},
      (walkList es).all (mayStand bound visible) → evalList I env es = some vs →
        evalList I env' (foldList b names es) = some vs
  | [], vs, _, h => by
    rw [foldList]
    exact h
  | e :: es, vs, hscoped, h => by
    rw [walkList, List.all_append, Bool.and_eq_true] at hscoped
    obtain ⟨v, ws, hv, hws, rfl⟩ := evalList_cons_eq_some.mp h
    rw [foldList]
    exact evalList_cons_eq_some.mpr ⟨v, ws, eval_fold hI hs e hscoped.1 hv,
      evalList_fold hI hs es hscoped.2 hws, rfl⟩

end

end Expr
end ValidUsage
