import ValidUsage.Proofs.FoldExpr

/-!
# Folding keeps what statements require

A folded statement leaves the same requirements unmet, in the same order. What it requires may
differ: a requirement of `True` is taken away. The statements of a branch may replace its `if`, so a
folded statement may leave more names bound than the statement did; they are not visible there.
-/

namespace ValidUsage

variable {α : Type}

/-- Whether two environments agree on the visible names and on those that a statement does not
bind. -/
def Env.Keeps (bound visible : List String) (env env' : Env α) : Prop :=
  ∀ id, id ∈ visible ∨ id ∉ bound → env' id = env id

namespace Env.Keeps

variable {bound visible : List String} {env env' env'' : Env α}

/-- An environment keeps itself. -/
theorem refl : Keeps bound visible env env := fun _ _ => rfl

/-- What is kept twice is kept. -/
theorem trans (h : Keeps bound visible env env') (h' : Keeps bound visible env' env'') :
    Keeps bound visible env env'' := fun id hid => (h' id hid).trans (h id hid)

/-- Fewer names are kept as well. -/
theorem mono {more : List String} (h : Keeps bound more env env') (hsub : visible ⊆ more) :
    Keeps bound visible env env' := fun id hid => h id (hid.imp_left fun hin => hsub hin)

/-- A new name of the statement leaves the others as they are. -/
theorem bind {id : String} (v : Value α) (hbound : id ∈ bound) (hnew : id ∉ visible) :
    Keeps bound visible env (env.bind id v) := by
  intro x hx
  refine Env.bind_of_ne env v ?_
  rintro rfl
  rcases hx with hx | hx
  · exact hnew hx
  · exact hx hbound

end Env.Keeps

namespace Simulates

variable {bound visible assigned : List String} {names : FoldedNames} {env env' env'' : Env α}

/-- More names may be bound that are not visible. -/
theorem keeps (hs : Simulates bound visible assigned names env env')
    (hk : env'.Keeps bound visible env'') : Simulates bound visible assigned names env env'' where
  known h := hs.known h
  agree hid hget := (hk _ (Or.inl hid)).trans (hs.agree hid hget)
  outside hid := by
    obtain ⟨hv, henv, henv'⟩ := hs.outside hid
    exact ⟨hv, henv, (hk _ (Or.inr hid)).trans henv'⟩

/-- The value of a new name is not known. -/
theorem get?_of_not_mem_visible (hs : Simulates bound visible assigned names env env') {id : String}
    (hid : id ∉ visible) : names.get? id = none := by
  cases hget : names.get? id with
  | none => rfl
  | some c => exact absurd (hs.known hget).2.1 hid

/-- The value of a name that no assignment binds is not known. -/
theorem get?_of_not_mem_assigned (hs : Simulates bound visible assigned names env env')
    {id : String} (hid : id ∉ assigned) : names.get? id = none := by
  cases hget : names.get? id with
  | none => rfl
  | some c => exact absurd (hs.known hget).1 hid

/-- A name whose value is not known is bound to the same value in both environments. -/
theorem bind (hs : Simulates bound visible assigned names env env') {id : String} (v : Value α)
    {more : List String} (hmore : assigned ⊆ more) (hbound : id ∈ bound)
    (hget : names.get? id = none) :
    Simulates bound (id :: visible) more names (env.bind id v) (env'.bind id v) where
  known {x c} h := by
    obtain ⟨hassigned, hvisible, henv⟩ := hs.known h
    refine ⟨hmore hassigned, List.mem_cons_of_mem id hvisible, ?_⟩
    have hne : x ≠ id := by
      rintro rfl
      rw [hget] at h
      cases h
    rw [Env.bind_of_ne env v hne, henv]
  agree {x} hx hnone := by
    by_cases hne : x = id
    · subst hne
      rw [Env.bind_self, Env.bind_self]
    · rw [Env.bind_of_ne env v hne, Env.bind_of_ne env' v hne]
      exact hs.agree (List.mem_of_ne_of_mem hne hx) hnone
  outside {x} hx := by
    have hne : x ≠ id := by
      rintro rfl
      exact hx hbound
    obtain ⟨hvisible, henv, henv'⟩ := hs.outside hx
    rw [Env.bind_of_ne env v hne, Env.bind_of_ne env' v hne]
    exact ⟨by simp [hne, hvisible], henv, henv'⟩

/-- A new name with a known value needs not be bound. -/
theorem insert (hs : Simulates bound visible assigned names env env') {id : String} (c : Bool)
    (hbound : id ∈ bound) (hnew : id ∉ visible) :
    Simulates bound (id :: visible) (id :: assigned) (names.insert id c)
      (env.bind id (.bool c)) env' where
  known {x d} h := by
    rw [Table.get?_insert] at h
    by_cases hx : x = id
    · subst hx
      rw [if_pos rfl] at h
      obtain rfl := Option.some.inj h
      exact ⟨List.mem_cons_self, List.mem_cons_self, Env.bind_self env x _⟩
    · rw [if_neg hx] at h
      obtain ⟨hassigned, hvisible, henv⟩ := hs.known h
      rw [Env.bind_of_ne env _ hx]
      exact ⟨List.mem_cons_of_mem id hassigned, List.mem_cons_of_mem id hvisible, henv⟩
  agree {x} hx hnone := by
    rw [Table.get?_insert] at hnone
    by_cases hne : x = id
    · rw [if_pos hne] at hnone
      cases hnone
    · rw [if_neg hne] at hnone
      rw [Env.bind_of_ne env _ hne]
      exact hs.agree (List.mem_of_ne_of_mem hne hx) hnone
  outside {x} hx := by
    have hne : x ≠ id := by
      rintro rfl
      exact hx hbound
    obtain ⟨hvisible, henv, henv'⟩ := hs.outside hx
    rw [Env.bind_of_ne env _ hne]
    exact ⟨by simp [hne, hvisible], henv, henv'⟩

end Simulates

namespace Stmt

variable {I : Interpretation α} {b : Build} {bound visible assigned : List String}
  {names : FoldedNames} {env env' : Env α}

/-- A block runs as it does without comments that stand alone. -/
theorem runBlock_live (x : Folded) : runBlock I env x.live.stmts = runBlock I env x.stmts := by
  unfold Folded.live
  split
  · next h => rw [runBlock_of_comments h, runBlock_nil]
  · rfl

/-- What the rounds of a loop leave unmet is what each of them does. -/
theorem rounds_filter {body body' : Value α → Option (List (Value α))} {p : Value α → Bool}
    (hbody : ∀ v rs, body v = some rs → ∃ rs', body' v = some rs' ∧ rs'.filter p = rs.filter p)
    {vs rs : List (Value α)} (h : rounds body vs = some rs) :
    ∃ rs', rounds body' vs = some rs' ∧ rs'.filter p = rs.filter p := by
  induction vs generalizing rs with
  | nil =>
    obtain rfl := Option.some.inj h
    exact ⟨[], rfl, rfl⟩
  | cons v vs ih =>
    simp only [rounds, Option.bind_eq_bind, Option.bind_eq_some_iff, Option.pure_def,
      Option.some.injEq] at h
    obtain ⟨first, hfirst, rest, hrest, rfl⟩ := h
    obtain ⟨first', hfirst', hfilter⟩ := hbody v first hfirst
    obtain ⟨rest', hrest', hfilters⟩ := ih hrest
    refine ⟨first' ++ rest', ?_, ?_⟩
    · simp [rounds, hfirst', hrest']
    · rw [List.filter_append, List.filter_append, hfilter, hfilters]

/-- What has a value is no requirement. -/
theorem requirement?_of_eval {e : Expr} {v : Value α} (h : e.eval I env = some v) :
    e.requirement? = none := by
  unfold Expr.requirement?
  split
  · split
    · next hid =>
      obtain ⟨f, _, hf, _⟩ := Expr.eval_call_eq_some.mp h
      simp [Expr.eval, hid] at hf
    · rfl
  · rfl

/-- What has a value is no call of a requirement. -/
theorem callName?_of_eval {e : Expr} {v : Value α} (h : e.eval I env = some v) :
    e.callName? ≠ some Predicate.require.name := by
  intro hname
  cases e with
  | call p func args =>
    obtain ⟨f, _, hf, _⟩ := Expr.eval_call_eq_some.mp h
    cases func with
    | name q id =>
      obtain rfl : id = Predicate.require.name := by simpa [Expr.callName?, Expr.name?] using hname
      simp [Expr.eval] at hf
    | _ => simp [Expr.callName?, Expr.name?] at hname
  | _ => simp [Expr.callName?] at hname

/-- An expression that has a value requires nothing as a statement. -/
theorem run_expr_of_eval {p : Pos} {e : Expr} {v : Value α} (h : e.eval I env = some v) :
    run I env (expr p e) = some ⟨[], env⟩ := by
  rw [run]
  split
  · rfl
  · simp [requirement?_of_eval h, h]

/-- An `if` of folded parts requires what the block requires that its test chooses. -/
theorem runBlock_foldIf {p : Pos} {test : Expr} {body orelse : Folded} {c : Bool} {y : Outcome α}
    (htest : test.eval I env = some (.bool c))
    (h : runBlock I env (if c then body.stmts else orelse.stmts) = some y) :
    runBlock I env (foldIf p test body orelse).stmts = some ⟨y.required, env⟩ := by
  unfold foldIf
  by_cases hbody : body.stmts = []
  · by_cases horelse : orelse.stmts = []
    · obtain rfl : y = ⟨[], env⟩ := by simpa [hbody, horelse, eq_comm] using h
      simp [hbody, horelse]
    · simp only [hbody, List.isEmpty_nil, if_true, List.isEmpty_iff, horelse, if_false,
        runBlock_singleton]
      refine run_ifElse_eq_some.mpr ⟨!c, y, Expr.eval_negated htest, ?_, rfl⟩
      cases c with
      | true => simpa [hbody] using h
      | false => exact h
  · simp only [List.isEmpty_iff, hbody, if_false, runBlock_singleton]
    exact run_ifElse_eq_some.mpr ⟨c, y, htest, h, rfl⟩

/-- Whether statements of a folded statement do what an outcome says: they leave the same unmet and
the visible names as they are. -/
def Leaves (I : Interpretation α) (bound visible : List String) (env : Env α) (stmts : Block)
    (x : Outcome α) : Prop :=
  ∃ y, runBlock I env stmts = some y ∧ y.unmet = x.unmet ∧ env.Keeps bound visible y.env

/-- A call of anything else is no comment. -/
theorem isComment_call {p q r : Pos} {id : String} {args : List Expr} (h : id ≠ commentName) :
    (expr p (.call q (.name r id) args)).isComment = false := by
  unfold isComment comment?
  split
  · next heq =>
    simp only [expr.injEq, Expr.call.injEq, Expr.name.injEq] at heq
    obtain ⟨_, _, ⟨_, rfl⟩, _⟩ := heq
    simp [h]
  · rfl

/-- A folded requirement leaves the same unmet. -/
theorem foldRequire_leaves (hI : Grounds I b bound)
    (hs : Simulates bound visible assigned names env env') {p q r : Pos} {arg : Expr}
    {v : Value α} (hrequire : Predicate.require.name ∉ bound)
    (hscoped : arg.isScoped bound visible) (h : arg.eval I env = some v) :
    Leaves I bound visible env'
      (foldRequire (expr p (.call q (.name r Predicate.require.name) [arg]))
      p ((Expr.call q (.name r Predicate.require.name) [arg]).fold b names)).stmts ⟨[v], env⟩ := by
  have hfold : (Expr.call q (.name r Predicate.require.name) [arg]).fold b names =
      .call q (.name r Predicate.require.name) [arg.fold b names] := by
    have halias : b.aliasOfFeature? (.name r Predicate.require.name) [arg] = none := rfl
    have hcondition : b.condition? (.name r Predicate.require.name) [arg] = none := rfl
    simp only [Expr.fold, halias, hcondition, Expr.foldList, Expr.foldName,
      hs.get?_outside hrequire]
  have harg := Expr.eval_fold hI hs arg hscoped h
  have hrun : run I env' (expr p (.call q (.name r Predicate.require.name) [arg.fold b names])) =
      some ⟨[v], env'⟩ := by
    rw [run, isComment_call (by decide)]
    simp [Expr.requirement?, harg]
  rw [hfold, foldRequire, firstArgument?]
  split
  · next htrue =>
    obtain rfl : Value.bool true = v := by
      simpa [Expr.eval_of_bool? htrue] using harg
    exact ⟨⟨[], env'⟩, rfl, rfl, .refl⟩
  · exact ⟨⟨[v], env'⟩, by rw [runBlock_singleton, hrun], rfl, .refl⟩
  · exact ⟨⟨[v], env'⟩, by rw [Folded.one, runBlock_singleton, hrun], rfl, .refl⟩

/-- A folded `if` leaves the same unmet when its blocks do. -/
theorem fold_ifElse_leaves (hI : Grounds I b bound)
    (hs : Simulates bound visible assigned names env env') {p : Pos} {test : Expr}
    {body orelse : Block} {c : Bool} {y : Outcome α} (hscoped : test.isScoped bound visible)
    (htest : test.eval I env = some (.bool c))
    (h : Leaves I bound visible env' (if c then (foldBlock b names body).stmts
      else (foldBlock b names orelse).stmts) y) :
    Leaves I bound visible env' (fold b names (.ifElse p test body orelse)).stmts
      ⟨y.required, env⟩ := by
  have hfolded := Expr.eval_fold hI hs test hscoped htest
  obtain ⟨z, hz, hunmet, hkeeps⟩ := h
  rw [fold]
  split
  · next htrue =>
    obtain rfl : true = c := by simpa [Expr.eval_of_bool? htrue] using hfolded
    exact ⟨z, (runBlock_live _).trans hz, hunmet, hkeeps⟩
  · next hfalse =>
    obtain rfl : false = c := by simpa [Expr.eval_of_bool? hfalse] using hfolded
    exact ⟨z, (runBlock_live _).trans hz, hunmet, hkeeps⟩
  · refine ⟨⟨z.required, env'⟩, runBlock_foldIf hfolded ?_, hunmet, .refl⟩
    cases c with
    | true => exact (runBlock_live _).trans hz
    | false => exact (runBlock_live _).trans hz

/-- A folded loop leaves the same unmet when its block does in every round. -/
theorem fold_forEach_leaves (hI : Grounds I b bound)
    (hs : Simulates bound visible assigned names env env') {p q : Pos} {id : String} {iter : Expr}
    {body : Block} {u : Value α} {vs rs : List (Value α)} (hscoped : iter.isScoped bound visible)
    (hiter : iter.eval I env = some u) (hvs : I.elements u = some vs)
    (hrs : rounds (fun v => (runBlock I (env.bind id v) body).map (·.required)) vs = some rs)
    (h : ∀ v y, runBlock I (env.bind id v) body = some y →
      Leaves I bound (id :: visible) (env'.bind id v) (foldBlock b names body).stmts y) :
    Leaves I bound visible env' (fold b names (.forEach p (.name q id) iter body [])).stmts
      ⟨rs, env⟩ := by
  have hround : ∀ v rs, (runBlock I (env.bind id v) body).map (·.required) = some rs →
      ∃ rs', (runBlock I (env'.bind id v) (foldBlock b names body).live.stmts).map (·.required) =
        some rs' ∧ rs'.filter (!·.isTrue) = rs.filter (!·.isTrue) := by
    intro v rs hrun
    obtain ⟨y, hy, rfl⟩ := Option.map_eq_some_iff.mp hrun
    obtain ⟨z, hz, hunmet, _⟩ := h v y hy
    refine ⟨z.required, ?_, hunmet⟩
    rw [runBlock_live, hz, Option.map_some]
  obtain ⟨rs', hrs', hfilter⟩ := rounds_filter hround hrs
  rw [fold]
  by_cases hempty : (foldBlock b names body).live.stmts = []
  · simp only [hempty, runBlock_nil, Option.map_some, rounds_nothing] at hrs'
    obtain rfl := Option.some.inj hrs'
    refine ⟨⟨[], env'⟩, ?_, hfilter, .refl⟩
    simp [hempty]
  · refine ⟨⟨rs', env'⟩, ?_, hfilter, .refl⟩
    simp only [List.isEmpty_iff, hempty, if_false, runBlock_singleton]
    exact run_forEach_eq_some.mpr ⟨q, id, u, vs, rs', rfl, rfl,
      Expr.eval_fold hI hs iter hscoped hiter, hvs, hrs', rfl⟩

/-- A folded expression leaves the same unmet as a statement. -/
theorem fold_expr_leaves (hI : Grounds I b bound)
    (hs : Simulates bound visible assigned names env env') {p : Pos} {value : Expr} {x : Outcome α}
    (hscoped : (expr p value).isScoped bound visible) (h : run I env (expr p value) = some x) :
    x.env = env ∧ Leaves I bound visible env' (fold b names (expr p value)).stmts x := by
  by_cases hcomment : (expr p value).isComment = true
  · rw [run_of_isComment hcomment] at h
    obtain rfl := Option.some.inj h
    refine ⟨rfl, ⟨[], env'⟩, ?_, rfl, .refl⟩
    rw [fold, if_pos hcomment, Folded.one, runBlock_singleton, run_of_isComment hcomment]
  · rw [run, if_neg hcomment] at h
    rw [fold, if_neg hcomment]
    rw [isScoped, Bool.or_eq_true, or_iff_right hcomment] at hscoped
    split at h
    · next arg hrequire =>
      obtain ⟨v, hv, rfl⟩ := Option.map_eq_some_iff.mp h
      simp only [hrequire, Bool.and_eq_true, Bool.not_eq_true', List.contains_eq_mem,
        decide_eq_false_iff_not] at hscoped
      unfold Expr.requirement? at hrequire
      split at hrequire
      · split at hrequire
        · next hid =>
          subst hid
          obtain rfl := Option.some.inj hrequire
          exact ⟨rfl, foldRequire_leaves hI hs hscoped.1 hscoped.2 hv⟩
        · cases hrequire
      · cases hrequire
    · next hrequire =>
      obtain ⟨v, hv, rfl⟩ := Option.map_eq_some_iff.mp h
      simp only [hrequire] at hscoped
      have hcall := callName?_of_eval hv
      have hfolded := Expr.eval_fold hI hs value hscoped hv
      rw [if_neg hcall]
      exact ⟨rfl, ⟨[], env'⟩, by rw [Folded.one, runBlock_singleton, run_expr_of_eval hfolded],
        rfl, .refl⟩

/-- A folded assignment binds the name, or the value of the name is known from there. -/
theorem fold_assign_simulates (hI : Grounds I b bound)
    (hs : Simulates bound visible assigned names env env') {p q : Pos} {id : String} {value : Expr}
    {v : Value α} (hscoped : value.isScoped bound visible) (hbound : id ∈ bound)
    (hnew : id ∉ visible) (hv : value.eval I env = some v) :
    ∃ y, runBlock I env' (fold b names (assign p [.name q id] value)).stmts = some y ∧
      y.required = [] ∧ env'.Keeps bound visible y.env ∧
      Simulates bound (id :: visible) (id :: assigned)
        (foldNames b names (assign p [.name q id] value)) (env.bind id v) y.env := by
  have hfolded := Expr.eval_fold hI hs value hscoped hv
  cases hc : (value.fold b names).bool? with
  | some c =>
    obtain rfl : Value.bool c = v := by simpa [Expr.eval_of_bool? hc] using hfolded
    simp only [fold, foldNames, constantBinding?, hc]
    exact ⟨⟨[], env'⟩, rfl, rfl, .refl, hs.insert c hbound hnew⟩
  | none =>
    simp only [fold, foldNames, constantBinding?, hc]
    refine ⟨⟨[], env'.bind id v⟩, ?_, rfl, .bind v hbound hnew, ?_⟩
    · rw [Folded.one, runBlock_singleton]
      exact run_assign_eq_some.mpr ⟨q, id, v, rfl, hfolded, rfl⟩
    · exact hs.bind v (List.subset_cons_self id assigned) hbound (hs.get?_of_not_mem_visible hnew)

mutual

/-- A folded statement leaves the same unmet, and what follows it reads the same values. -/
theorem run_fold (hI : Grounds I b bound) : ∀ (s : Stmt) {visible assigned : List String}
    {names : FoldedNames} {env env' : Env α} {x : Outcome α},
      Simulates bound visible assigned names env env' → s.isScoped bound visible →
      s.keepsAssigned assigned → s.bound ⊆ bound → run I env s = some x →
      ∃ y, runBlock I env' (fold b names s).stmts = some y ∧ y.unmet = x.unmet ∧
        env'.Keeps bound visible y.env ∧
        Simulates bound (s.introduces ++ visible) (s.introduces ++ assigned) (foldNames b names s)
          x.env y.env
  | assign p targets value, visible, assigned, names, env, env', x, hs, hscoped, _, hbound, h => by
    obtain ⟨q, id, v, rfl, hv, rfl⟩ := run_assign_eq_some.mp h
    rw [isScoped, Bool.and_eq_true, Bool.not_eq_true', List.contains_eq_mem,
      decide_eq_false_iff_not] at hscoped
    have hin : id ∈ bound := hbound (by simp [Stmt.bound, Expr.name?])
    obtain ⟨y, hy, hrequired, hkeeps, hs'⟩ :=
      fold_assign_simulates (p := p) (q := q) hI hs hscoped.1 hin hscoped.2 hv
    refine ⟨y, hy, ?_, hkeeps, hs'⟩
    rw [Outcome.unmet, hrequired, Outcome.unmet]
  | ifElse p test body orelse, visible, assigned, names, env, env', x, hs, hscoped, hkeep, hbound,
      h => by
    obtain ⟨c, y, htest, hy, rfl⟩ := run_ifElse_eq_some.mp h
    rw [isScoped, Bool.and_eq_true, Bool.and_eq_true] at hscoped
    rw [keepsAssigned, Bool.and_eq_true] at hkeep
    rw [Stmt.bound, List.append_subset] at hbound
    have hleaves : Leaves I bound visible env' (if c then (foldBlock b names body).stmts
        else (foldBlock b names orelse).stmts) y := by
      cases c with
      | true => exact runBlock_fold hI body hs hscoped.1.2 hkeep.1 hbound.1 hy
      | false => exact runBlock_fold hI orelse hs hscoped.2 hkeep.2 hbound.2 hy
    obtain ⟨z, hz, hunmet, hkeeps⟩ :=
      fold_ifElse_leaves (p := p) hI hs hscoped.1.1 htest hleaves
    exact ⟨z, hz, hunmet, hkeeps, hs.keeps hkeeps⟩
  | forEach p target iter body orelse, visible, assigned, names, env, env', x, hs, hscoped, hkeep,
      hbound, h => by
    obtain ⟨q, id, u, vs, rs, rfl, rfl, hu, hvs, hrs, rfl⟩ := run_forEach_eq_some.mp h
    rw [isScoped, Bool.and_eq_true] at hscoped
    simp only [keepsAssigned, Expr.name?, Option.all_some, Bool.and_eq_true, Bool.not_eq_true',
      List.contains_eq_mem, decide_eq_false_iff_not] at hkeep
    simp only [Stmt.bound, Expr.name?, Option.toList_some, List.singleton_append,
      List.cons_subset, List.append_subset] at hbound
    have hround : ∀ v y, runBlock I (env.bind id v) body = some y →
        Leaves I bound (id :: visible) (env'.bind id v) (foldBlock b names body).stmts y := by
      intro v y hy
      have hbind := hs.bind v (List.Subset.refl assigned) hbound.1
        (hs.get?_of_not_mem_assigned hkeep.1)
      exact runBlock_fold hI body hbind hscoped.2 hkeep.2 hbound.2.1 hy
    obtain ⟨z, hz, hunmet, hkeeps⟩ :=
      fold_forEach_leaves (p := p) (q := q) hI hs hscoped.1 hu hvs hrs hround
    exact ⟨z, hz, hunmet, hkeeps, hs.keeps hkeeps⟩
  | expr p value, visible, assigned, names, env, env', x, hs, hscoped, _, _, h => by
    obtain ⟨henv, z, hz, hunmet, hkeeps⟩ := fold_expr_leaves hI hs hscoped h
    rw [henv]
    exact ⟨z, hz, hunmet, hkeeps, hs.keeps hkeeps⟩
  | pass p, visible, assigned, names, env, env', x, hs, _, _, _, h => by
    obtain rfl := Option.some.inj h
    exact ⟨⟨[], env'⟩, rfl, rfl, .refl, hs⟩
  | update p t o v, _, _, _, _, _, _, _, _, _, _, h
  | whileDo p t b o, _, _, _, _, _, _, _, _, _, _, h
  | breakOut p, _, _, _, _, _, _, _, _, _, _, h | nextRound p, _, _, _, _, _, _, _, _, _, _, h => by
    simp [run] at h

/-- A folded block leaves the same unmet, and the visible names as they are. -/
theorem runBlock_fold (hI : Grounds I b bound) : ∀ (ss : Block) {visible assigned : List String}
    {names : FoldedNames} {env env' : Env α} {x : Outcome α},
      Simulates bound visible assigned names env env' → isScopedBlock bound visible ss →
      keepsAssignedBlock assigned ss → boundBlock ss ⊆ bound → runBlock I env ss = some x →
      Leaves I bound visible env' (foldBlock b names ss).stmts x
  | [], visible, assigned, names, env, env', x, _, _, _, _, h => by
    obtain rfl := Option.some.inj h
    exact ⟨⟨[], env'⟩, rfl, rfl, .refl⟩
  | s :: ss, visible, assigned, names, env, env', x, hs, hscoped, hkeep, hbound, h => by
    rw [isScopedBlock, Bool.and_eq_true] at hscoped
    rw [keepsAssignedBlock, Bool.and_eq_true] at hkeep
    rw [boundBlock, List.append_subset] at hbound
    obtain ⟨y, z, hy, hz, rfl⟩ := runBlock_cons_eq_some.mp h
    obtain ⟨y', hy', hunmet, hkeeps, hs'⟩ := run_fold hI s hs hscoped.1 hkeep.1 hbound.1 hy
    obtain ⟨z', hz', hunmets, hkeeps'⟩ :=
      runBlock_fold hI ss hs' hscoped.2 hkeep.2 hbound.2 hz
    refine ⟨⟨y'.required ++ z'.required, z'.env⟩, ?_, ?_, hkeeps.trans (hkeeps'.mono ?_)⟩
    · rw [foldBlock, Folded.append, runBlock_append, hy', Option.bind_some, hz', Option.map_some]
    · rw [Outcome.unmet] at hunmet hunmets
      rw [Outcome.unmet, List.filter_append, hunmet, hunmets, Outcome.unmet, Outcome.unmet,
        Outcome.unmet, List.filter_append]
    · exact List.subset_append_right _ _

end

end Stmt

namespace Block

/-- A folded statement leaves the same unmet. -/
theorem unmet_fold {I : Interpretation α} {b : Build} {block : Block} {vs : List (Value α)}
    (hI : I.Fits b) (hclosed : block.Closed b) (hdistinct : block.Distinct b)
    (h : block.unmet I = some vs) : (block.fold b).stmts.unmet I = some vs := by
  obtain ⟨x, hx, rfl⟩ := Option.map_eq_some_iff.mp h
  have hgrounds : Grounds I b block.bound := by
    refine ⟨hI, ?_, hdistinct.predicate, hdistinct.extension⟩
    intro id hid
    have huntracked := hclosed.untracked id hid
    rw [Availability.tracks, Bool.or_eq_false_iff] at huntracked
    exact huntracked.2
  have hs : Simulates block.bound [] [] .empty (Env.empty : Env α) .empty :=
    ⟨fun hget => by simp [Table.get?, Table.empty] at hget, fun hid => by simp at hid,
      fun _ => ⟨by simp, rfl, rfl⟩⟩
  obtain ⟨y, hy, hunmet, _⟩ := Stmt.runBlock_fold hgrounds block hs hclosed.inScope
    hdistinct.keeps (List.Subset.refl _) hx
  rw [unmet, Block.fold, Stmt.runBlock_live, hy, Option.map_some, hunmet]

end Block
end ValidUsage
