import ValidUsage.Proofs.Meaning

/-!
# Taking dead code away keeps what statements require

An unused name is bound once and read nowhere, so no expression tells whether it is bound. A round
keeps what is required, value by value; so do all rounds together. Nothing is assumed of where names
are visible.
-/

namespace ValidUsage

variable {α : Type}

/-- Whether two environments agree on all names but those that are unused. -/
def Env.AgreeOff (unused : List String) (env env' : Env α) : Prop :=
  ∀ id, id ∉ unused → env id = env' id

namespace Env.AgreeOff

variable {unused : List String} {env env' : Env α}

/-- Environments that agree do so with one more binding in both. -/
theorem bind (h : AgreeOff unused env env') (id : String) (v : Value α) :
    AgreeOff unused (env.bind id v) (env'.bind id v) := by
  intro x hx
  by_cases hne : x = id
  · rw [hne, Env.bind_self, Env.bind_self]
  · rw [Env.bind_of_ne env v hne, Env.bind_of_ne env' v hne, h x hx]

/-- The binding of an unused name may be left out. -/
theorem bind_left (h : AgreeOff unused env env') {id : String} (v : Value α) (hid : id ∈ unused) :
    AgreeOff unused (env.bind id v) env' := by
  intro x hx
  have hne : x ≠ id := by
    rintro rfl
    exact hx hid
  rw [Env.bind_of_ne env v hne, h x hx]

end Env.AgreeOff

/-! ## What is read -/

namespace Expr

/-- Whether none of several expressions is one of some names. -/
def Avoid (unused : List String) (es : List Expr) : Prop :=
  ∀ e ∈ es, ∀ id ∈ unused, e.name? ≠ some id

/-- Expressions avoid names if the first and the others do. -/
theorem avoid_cons {unused : List String} {e : Expr} {es : List Expr} :
    Avoid unused (e :: es) ↔ (∀ id ∈ unused, e.name? ≠ some id) ∧ Avoid unused es :=
  List.forall_mem_cons

/-- Expressions avoid names if those of both lists do. -/
theorem avoid_append {unused : List String} {es ds : List Expr} :
    Avoid unused (es ++ ds) ↔ Avoid unused es ∧ Avoid unused ds :=
  List.forall_mem_append

variable {I : Interpretation α} {unused : List String} {env env' : Env α}

mutual

/-- The value of an expression does not depend on names that are not in it. -/
theorem eval_congr (h : Env.AgreeOff unused env env') : ∀ e : Expr,
    Avoid unused e.walk → e.eval I env = e.eval I env'
  | name p id, hout => by
    have hid : id ∉ unused := by
      intro hin
      exact (avoid_cons.mp hout).1 id hin rfl
    rw [eval, eval, h id hid]
  | const p c, _ => by cases c <;> simp only [eval]
  | boolOp p op values, hout => by
    simp only [walk, avoid_cons] at hout
    rw [eval, eval, evalList_congr h values hout.2]
  | binary p left op right, hout => by
    simp only [walk, avoid_cons, avoid_append] at hout
    rw [eval, eval, eval_congr h left hout.2.1, eval_congr h right hout.2.2]
  | unary p op operand, hout => by
    simp only [walk, avoid_cons] at hout
    rw [eval, eval, eval_congr h operand hout.2]
  | compare p left ops comparators, hout => by
    simp only [walk, avoid_cons, avoid_append] at hout
    rw [eval, eval, eval_congr h left hout.2.1, evalList_congr h comparators hout.2.2]
  | call p func args, hout => by
    simp only [walk, avoid_cons, avoid_append] at hout
    rw [eval, eval, eval_congr h func hout.2.1, evalList_congr h args hout.2.2]
  | member p value attr, hout => by
    simp only [walk, avoid_cons] at hout
    rw [eval, eval, eval_congr h value hout.2]
  | subscript p value index, hout => by
    simp only [walk, avoid_cons, avoid_append] at hout
    rw [eval, eval, eval_congr h value hout.2.1, eval_congr h index hout.2.2]
  | ifExp p test body orelse, hout => by
    simp only [walk, avoid_cons, avoid_append] at hout
    rw [eval, eval, eval_congr h test hout.2.1, eval_congr h body hout.2.2.1,
      eval_congr h orelse hout.2.2.2]
  | tuple p elts, _ | list p elts, _ | slice p l u s, _ => by simp only [eval]

/-- The values of expressions do not depend on names that are not in them. -/
theorem evalList_congr (h : Env.AgreeOff unused env env') : ∀ es : List Expr,
    Avoid unused (walkList es) → evalList I env es = evalList I env' es
  | [], _ => rfl
  | e :: es, hout => by
    rw [walkList, avoid_append] at hout
    rw [evalList, evalList, eval_congr h e hout.1, evalList_congr h es hout.2]

end

end Expr

namespace Stmt

mutual

/-- The expressions that a statement reads, with their parts. -/
def reads : Stmt → List Expr
  | assign _ _ value | expr _ value => value.walk
  | update _ target _ value => target.walk ++ value.walk
  | ifElse _ test body orelse | whileDo _ test body orelse =>
    test.walk ++ (readsBlock body ++ readsBlock orelse)
  | forEach _ _ iter body orelse => iter.walk ++ (readsBlock body ++ readsBlock orelse)
  | _ => []

/-- The expressions that a block reads, with their parts. -/
def readsBlock : Block → List Expr
  | [] => []
  | s :: ss => reads s ++ readsBlock ss

end

/-- Names of targets are among the parts of the targets. -/
private theorem count_targets (id : String) (targets : List Expr) :
    (targets.filterMap Expr.name?).count id ≤
      (Expr.walkList targets).countP fun e => e.name? == some id := by
  induction targets with
  | nil => simp
  | cons e es ih =>
    rw [Expr.walkList, List.countP_append]
    cases he : e.name? with
    | none =>
      rw [List.filterMap_cons_none he]
      omega
    | some x =>
      obtain ⟨p, rfl⟩ : ∃ p, e = .name p x := by
        cases e with
        | name p y =>
          obtain rfl := Option.some.inj he
          exact ⟨p, rfl⟩
        | _ => cases he
      rw [List.filterMap_cons_some he, List.count_cons, Expr.walk, List.countP_singleton, he,
        Option.some_beq_some]
      omega

mutual

/-- Where a name is assigned and where it is read it is mentioned. -/
private theorem count_assigned_reads (id : String) : ∀ s : Stmt,
    (assigned s).count id + (reads s).countP (fun e => e.name? == some id) ≤
      s.walk.countP fun e => e.name? == some id
  | assign p targets value => by
    have := count_targets id targets
    simp only [assigned, reads, walk, List.countP_append]
    omega
  | ifElse p test body orelse | whileDo p test body orelse => by
    have hbody := count_assigned_reads_block id body
    have horelse := count_assigned_reads_block id orelse
    simp only [assigned, reads, walk, List.countP_append, List.count_append]
    omega
  | forEach p target iter body orelse => by
    have hbody := count_assigned_reads_block id body
    have horelse := count_assigned_reads_block id orelse
    simp only [assigned, reads, walk, List.countP_append, List.count_append]
    omega
  | update p target op value => by simp [assigned, reads, walk]
  | expr p value => by simp [assigned, reads, walk]
  | pass p | breakOut p | nextRound p => by simp [assigned, reads, walk]

/-- Where a name is assigned and where it is read in a block it is mentioned. -/
private theorem count_assigned_reads_block (id : String) : ∀ b : Block,
    (assignedBlock b).count id + (readsBlock b).countP (fun e => e.name? == some id) ≤
      (walkBlock b).countP fun e => e.name? == some id
  | [] => by simp [assignedBlock, readsBlock]
  | s :: ss => by
    have hs := count_assigned_reads id s
    have hss := count_assigned_reads_block id ss
    simp only [assignedBlock, readsBlock, walkBlock, List.countP_append, List.count_append]
    omega

end

/-- A block does not read the names that are unused in it. -/
theorem avoid_unusedNames (b : Block) : Expr.Avoid b.unusedNames (readsBlock b) := by
  intro e he id hid hname
  rw [Block.unusedNames, List.mem_filter, decide_eq_true_eq, Block.mentions, Block.walk] at hid
  have hcount := count_assigned_reads_block id b
  have hassigned := List.count_pos_iff.mpr hid.1
  have hread : 0 < (readsBlock b).countP fun e => e.name? == some id :=
    List.countP_pos_iff.mpr ⟨e, he, by simp [hname]⟩
  omega

/-! ## A round -/

variable {I : Interpretation α} {unused : List String} {env env' : Env α}

/-- The statements that are left of a block. -/
def leftOf (x : Pruned Block) : Block := x.left.getD []

/-- Settling the statements that are left keeps what they require. -/
theorem runBlock_settle (b : Block) (changed : Bool) :
    runBlock I env (leftOf (settle b changed)) = runBlock I env b := by
  unfold settle
  split
  · next hempty =>
    obtain rfl := List.isEmpty_iff.mp hempty
    rfl
  · split
    · next hcomments =>
      rw [runBlock_of_comments hcomments]
      rfl
    · rfl

/-- An `if` of what is left of its blocks requires what the block requires that its test chooses. -/
theorem runBlock_settleIf {p : Pos} {test : Expr} {body orelse : Pruned Block} {c : Bool}
    {y : Outcome α} (htest : test.eval I env = some (.bool c))
    (h : runBlock I env (if c then leftOf body else leftOf orelse) = some y) :
    runBlock I env (settleIf p test body orelse).left.toList = some ⟨y.required, env⟩ := by
  obtain ⟨bodyLeft, bodyChanged⟩ := body
  obtain ⟨orelseLeft, orelseChanged⟩ := orelse
  cases bodyLeft with
  | some b =>
    simp only [settleIf, Option.toList_some, runBlock_singleton]
    exact run_ifElse_eq_some.mpr ⟨c, y, htest, h, rfl⟩
  | none =>
    cases orelseLeft with
    | none =>
      obtain rfl : y = ⟨[], env⟩ := by simpa [leftOf, eq_comm] using h
      rfl
    | some o =>
      simp only [settleIf, Option.toList_some, runBlock_singleton]
      refine run_ifElse_eq_some.mpr ⟨!c, y, Expr.eval_negated htest, ?_, rfl⟩
      cases c with
      | true => exact h
      | false => exact h

/-- Rounds that require the same require the same together. -/
theorem rounds_congr {body body' : Value α → Option (List (Value α))}
    (hbody : ∀ v rs, body v = some rs → body' v = some rs) {vs rs : List (Value α)}
    (h : rounds body vs = some rs) : rounds body' vs = some rs := by
  induction vs generalizing rs with
  | nil => exact h
  | cons v vs ih =>
    simp only [rounds, Option.bind_eq_bind, Option.bind_eq_some_iff, Option.pure_def,
      Option.some.injEq] at h ⊢
    obtain ⟨first, hfirst, rest, hrest, rfl⟩ := h
    exact ⟨first, hbody v first hfirst, rest, ih hrest, rfl⟩

/-- Whether statements require what an outcome says, and bind what it says but for unused names. -/
def Yields (I : Interpretation α) (unused : List String) (env : Env α) (stmts : Block)
    (x : Outcome α) : Prop :=
  ∃ y, runBlock I env stmts = some y ∧ y.required = x.required ∧ x.env.AgreeOff unused y.env

/-- An expression that does not read unused names requires the same without them. -/
theorem run_expr_congr {p : Pos} {value : Expr} {x : Outcome α}
    (hagree : env.AgreeOff unused env') (hout : Expr.Avoid unused value.walk)
    (h : run I env (expr p value) = some x) :
    x.env = env ∧ run I env' (expr p value) = some ⟨x.required, env'⟩ := by
  by_cases hcomment : (expr p value).isComment = true
  · rw [run_of_isComment hcomment] at h
    obtain rfl := Option.some.inj h
    exact ⟨rfl, run_of_isComment hcomment⟩
  · rw [run, if_neg hcomment] at h ⊢
    cases hrequire : value.requirement? with
    | none =>
      simp only [hrequire] at h
      obtain ⟨v, hv, rfl⟩ := Option.map_eq_some_iff.mp h
      rw [Expr.eval_congr hagree value hout] at hv
      exact ⟨rfl, Option.map_eq_some_iff.mpr ⟨v, hv, rfl⟩⟩
    | some arg =>
      have harg : Expr.Avoid unused arg.walk := by
        unfold Expr.requirement? at hrequire
        split at hrequire
        · split at hrequire
          · obtain rfl := Option.some.inj hrequire
            simp only [Expr.walk, Expr.walkList, Expr.avoid_cons, Expr.avoid_append] at hout
            exact hout.2.2.1
          · cases hrequire
        · cases hrequire
      simp only [hrequire] at h
      obtain ⟨v, hv, rfl⟩ := Option.map_eq_some_iff.mp h
      rw [Expr.eval_congr hagree arg harg] at hv
      exact ⟨rfl, Option.map_eq_some_iff.mpr ⟨v, hv, rfl⟩⟩

mutual

/-- What a round leaves of a statement requires the same. -/
theorem run_prune : ∀ (s : Stmt) {env env' : Env α} {x : Outcome α},
    env.AgreeOff unused env' → Expr.Avoid unused (reads s) → run I env s = some x →
      Yields I unused env' (prune unused s).left.toList x
  | assign p targets value, env, env', x, hagree, hout, h => by
    obtain ⟨q, id, v, rfl, hv, rfl⟩ := run_assign_eq_some.mp h
    rw [reads] at hout
    rw [Expr.eval_congr hagree value hout] at hv
    simp only [prune]
    by_cases hid : id ∈ unused
    · rw [if_pos (by simpa [bindsUnused] using hid)]
      exact ⟨⟨[], env'⟩, rfl, rfl, hagree.bind_left v hid⟩
    · rw [if_neg (by simpa [bindsUnused] using hid)]
      refine ⟨⟨[], env'.bind id v⟩, ?_, rfl, hagree.bind id v⟩
      rw [Option.toList_some, runBlock_singleton]
      exact run_assign_eq_some.mpr ⟨q, id, v, rfl, hv, rfl⟩
  | ifElse p test body orelse, env, env', x, hagree, hout, h => by
    obtain ⟨c, y, htest, hy, rfl⟩ := run_ifElse_eq_some.mp h
    rw [reads, Expr.avoid_append, Expr.avoid_append] at hout
    rw [Expr.eval_congr hagree test hout.1] at htest
    have hchosen : Yields I unused env' (if c then (pruneStmts unused body).1
        else (pruneStmts unused orelse).1) y := by
      cases c with
      | true => exact runBlock_prune body hagree hout.2.1 hy
      | false => exact runBlock_prune orelse hagree hout.2.2 hy
    obtain ⟨z, hz, hrequired, _⟩ := hchosen
    rw [prune]
    refine ⟨⟨z.required, env'⟩, runBlock_settleIf htest ?_, hrequired, hagree⟩
    cases c with
    | true => exact (runBlock_settle _ _).trans hz
    | false => exact (runBlock_settle _ _).trans hz
  | forEach p target iter body orelse, env, env', x, hagree, hout, h => by
    obtain ⟨q, id, u, vs, rs, rfl, rfl, hu, hvs, hrs, rfl⟩ := run_forEach_eq_some.mp h
    rw [reads, Expr.avoid_append, Expr.avoid_append] at hout
    rw [Expr.eval_congr hagree iter hout.1] at hu
    have hrounds : rounds (fun v => (runBlock I (env'.bind id v)
        (leftOf (settle (pruneStmts unused body).1 (pruneStmts unused body).2))).map
          (·.required)) vs = some rs := by
      refine rounds_congr (fun v rs hround => ?_) hrs
      obtain ⟨y, hy, rfl⟩ := Option.map_eq_some_iff.mp hround
      obtain ⟨z, hz, hrequired, _⟩ := runBlock_prune body (hagree.bind id v) hout.2.1 hy
      rw [runBlock_settle, hz, Option.map_some, hrequired]
    rw [prune]
    generalize settle (pruneStmts unused body).1 (pruneStmts unused body).2 = left at hrounds ⊢
    obtain ⟨bodyLeft, changed⟩ := left
    cases bodyLeft with
    | none =>
      simp only [leftOf, Option.getD_none, runBlock_nil, Option.map_some, rounds_nothing] at hrounds
      obtain rfl := Option.some.inj hrounds
      exact ⟨⟨[], env'⟩, rfl, rfl, hagree⟩
    | some b =>
      refine ⟨⟨rs, env'⟩, ?_, rfl, hagree⟩
      rw [Option.map_some, Option.toList_some, runBlock_singleton]
      exact run_forEach_eq_some.mpr ⟨q, id, u, vs, rs, rfl, rfl, hu, hvs, hrounds, rfl⟩
  | expr p value, env, env', x, hagree, hout, h => by
    obtain ⟨henv, hrun⟩ := run_expr_congr hagree hout h
    refine ⟨⟨x.required, env'⟩, ?_, rfl, henv ▸ hagree⟩
    simpa [prune, bindsUnused] using hrun
  | pass p, env, env', x, hagree, _, h => by
    obtain rfl := Option.some.inj h
    exact ⟨⟨[], env'⟩, rfl, rfl, hagree⟩
  | update p t o v, _, _, _, _, _, h | whileDo p t b o, _, _, _, _, _, h
  | breakOut p, _, _, _, _, _, h | nextRound p, _, _, _, _, _, h => by
    simp [run] at h

/-- What a round leaves of a block requires the same. -/
theorem runBlock_prune : ∀ (ss : Block) {env env' : Env α} {x : Outcome α},
    env.AgreeOff unused env' → Expr.Avoid unused (readsBlock ss) → runBlock I env ss = some x →
      Yields I unused env' (pruneStmts unused ss).1 x
  | [], env, env', x, hagree, _, h => by
    obtain rfl := Option.some.inj h
    exact ⟨⟨[], env'⟩, rfl, rfl, hagree⟩
  | s :: ss, env, env', x, hagree, hout, h => by
    rw [readsBlock, Expr.avoid_append] at hout
    obtain ⟨y, z, hy, hz, rfl⟩ := runBlock_cons_eq_some.mp h
    obtain ⟨y', hy', hrequired, hagree'⟩ := run_prune s hagree hout.1 hy
    obtain ⟨z', hz', hrequired', hagree''⟩ := runBlock_prune ss hagree' hout.2 hz
    have hblock : (pruneStmts unused (s :: ss)).1 =
        (prune unused s).left.toList ++ (pruneStmts unused ss).1 := by
      rw [pruneStmts]
      cases (prune unused s).left <;> rfl
    refine ⟨⟨y'.required ++ z'.required, z'.env⟩, ?_, ?_, hagree''⟩
    · rw [hblock, runBlock_append, hy', Option.bind_some, hz', Option.map_some]
    · rw [hrequired, hrequired']

end

end Stmt

namespace Block

variable {I : Interpretation α} {env : Env α}

/-- What a round leaves of a whole statement requires the same. -/
theorem required_prune {b : Block} {x : Outcome α} (h : Stmt.runBlock I env b = some x) :
    ∃ y, Stmt.runBlock I env (Stmt.leftOf b.prune) = some y ∧ y.required = x.required := by
  have hself : env.AgreeOff b.unusedNames env := fun _ _ => rfl
  obtain ⟨y, hy, hrequired, _⟩ :=
    Stmt.runBlock_prune b hself (Stmt.avoid_unusedNames b) h
  exact ⟨y, (Stmt.runBlock_settle _ _).trans hy, hrequired⟩

/-- What is left of a statement without its dead code requires the same. -/
theorem required_withoutDeadCode (b : Block) {x : Outcome α}
    (h : Stmt.runBlock I env b = some x) :
    ∃ y, Stmt.runBlock I env (b.withoutDeadCode.getD []) = some y ∧ y.required = x.required := by
  induction b using withoutDeadCode.induct generalizing x with
  | case1 b changed hprune =>
    obtain ⟨y, hy, hrequired⟩ := required_prune h
    rw [withoutDeadCode, hprune]
    rw [hprune] at hy
    exact ⟨y, hy, hrequired⟩
  | case2 b left hprune =>
    obtain ⟨y, hy, hrequired⟩ := required_prune h
    rw [withoutDeadCode, hprune]
    rw [hprune] at hy
    exact ⟨y, hy, hrequired⟩
  | case3 b left hprune ih =>
    obtain ⟨y, hy, hrequired⟩ := required_prune h
    rw [hprune] at hy
    obtain ⟨z, hz, hrequired'⟩ := ih hy
    rw [withoutDeadCode, hprune]
    exact ⟨z, hz, hrequired'.trans hrequired⟩

/-- What is left of a statement without its dead code leaves the same unmet. -/
theorem unmet_withoutDeadCode {b : Block} {vs : List (Value α)} (h : b.unmet I = some vs) :
    (b.withoutDeadCode.getD []).unmet I = some vs := by
  obtain ⟨x, hx, rfl⟩ := Option.map_eq_some_iff.mp h
  obtain ⟨y, hy, hrequired⟩ := required_withoutDeadCode b hx
  rw [unmet, hy, Option.map_some, Outcome.unmet, Outcome.unmet, hrequired]

end Block
end ValidUsage
