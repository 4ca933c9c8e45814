import ValidUsage.Strip.Basic

/-!
# What a statement means

An interpretation says what names, literals, members, elements, operations and calls stand for, each
as a function of what its parts stand for. Conditions joined with `and`, `or` and `not`, choices and
comparisons of truth values have their own meaning. A run of a statement gives the values that it
requires, in order. What has no meaning, such as a condition that is no truth value, makes the whole
run undefined; so do constructs that the language lacks, and a requirement within an expression.
-/

namespace ValidUsage

/-- The conjunction or disjunction of truth values. -/
def BoolOp.join (op : BoolOp) (bs : List Bool) : Bool :=
  match op with
  | .and => bs.all id
  | .or => bs.any id

/-- What an expression stands for: a truth value or anything else. -/
inductive Value (α : Type) where
  /-- A truth value. -/
  | bool (b : Bool)
  /-- Any other value. -/
  | other (a : α)

namespace Value

variable {α : Type}

/-- The truth value, if a value is one. -/
def bool? : Value α → Option Bool
  | bool b => some b
  | other _ => none

/-- Whether a value is the truth value `True`. -/
def isTrue : Value α → Bool
  | bool b => b
  | other _ => false

/-- Values joined by an operator, if all are truth values. -/
def joined (op : BoolOp) (vs : List (Value α)) : Option (Value α) :=
  (vs.mapM bool?).map fun bs => bool (op.join bs)

/-- The opposite of a truth value. -/
def negated (v : Value α) : Option (Value α) := v.bool?.map fun b => bool !b

/-- The opposite of a value is that of a truth value. -/
theorem negated_eq_some {v r : Value α} : v.negated = some r ↔ ∃ c, v = bool c ∧ r = bool !c := by
  cases v with
  | bool c => simp [negated, bool?, eq_comm]
  | other a => simp [negated, bool?]

/-- A value that is read as a truth value is one. -/
theorem bool?_eq_some {v : Value α} {c : Bool} : v.bool? = some c ↔ v = bool c := by
  cases v <;> simp [bool?]

end Value

/-- What names, literals, operations and calls stand for; `none` where they stand for nothing. -/
structure Interpretation (α : Type) where
  /-- A name that the statement does not bind. The value of a name of the API may be the name. -/
  name : String → Option (Value α)
  /-- A literal other than a truth value. -/
  const : Constant → Option (Value α)
  /-- A sign or the complement of flags. -/
  unary : UnaryOp → Value α → Option (Value α)
  /-- Arithmetic and operations on flags. -/
  binary : BinOp → Value α → Value α → Option (Value α)
  /-- A chain of comparisons. -/
  compare : List CmpOp → List (Value α) → Option (Value α)
  /-- A member of a value. A predicate that is called on a receiver is a member of it. -/
  member : String → Value α → Option (Value α)
  /-- An element of a value, by its index. -/
  element : Value α → Value α → Option (Value α)
  /-- A call of a value with arguments. -/
  call : Value α → List (Value α) → Option (Value α)
  /-- The values that a loop visits. -/
  elements : Value α → Option (List (Value α))

/-- The values of the names that a statement binds. -/
abbrev Env (α : Type) := String → Option (Value α)

namespace Env

variable {α : Type}

/-- No name is bound. -/
def empty : Env α := fun _ => none

/-- One more name is bound. -/
def bind (env : Env α) (id : String) (v : Value α) : Env α :=
  fun x => if x = id then some v else env x

/-- A name has the value that it was bound to. -/
@[simp] theorem bind_self (env : Env α) (id : String) (v : Value α) :
    env.bind id v id = some v := by
  simp [bind]

/-- Binding a name leaves the others as they are. -/
theorem bind_of_ne (env : Env α) {id x : String} (v : Value α) (h : x ≠ id) :
    env.bind id v x = env x := by
  simp [bind, h]

end Env

namespace Interpretation

variable {α : Type}

/-- Comparisons: equality of two truth values has its own meaning. -/
def comparison (I : Interpretation α) (ops : List CmpOp) (vs : List (Value α)) :
    Option (Value α) :=
  match ops, vs with
  | [.eq], [.bool a, .bool b] => some (.bool (a == b))
  | [.notEq], [.bool a, .bool b] => some (.bool (a != b))
  | _, _ => I.compare ops vs

/-- A predicate called by its name. -/
def asks (I : Interpretation α) (q : Predicate) (vs : List (Value α)) : Option (Value α) :=
  (I.name q.name).bind fun f => I.call f vs

/-- A predicate called on a receiver. -/
def asksOf (I : Interpretation α) (m : Method) (u : Value α) (vs : List (Value α)) :
    Option (Value α) :=
  (I.member m.name u).bind fun f => I.call f vs

/-- Whether an interpretation agrees with what a build decides: wherever a predicate or a comparison
has a value that the build knows, it has that one. -/
structure Fits (I : Interpretation α) (b : Build) : Prop where
  /-- What demands a condition is no value. -/
  require : I.name Predicate.require.name = none
  /-- A version is there if the build includes it. -/
  version : ∀ {major minor : Nat} {v w r : Value α}, I.const (.int major) = some v →
    I.const (.int minor) = some w → I.asks .isVersion [v, w] = some r →
      r = .bool (b.config.hasVersion major minor)
  /-- An extension that the build lacks is not enabled. -/
  extension : ∀ {ext : String} {v r : Value α}, b.config.hasExtension ext = false →
    I.name ext = some v → I.asks .isExtEnabled [v] = some r → r = .bool false
  /-- A feature that the build lacks is not enabled, unless an extension stands for it. -/
  feature : ∀ {f : String} {v r : Value α}, b.availability.featureDefined b.config f = false →
    b.config.legacyAlias? f = none → I.name f = some v →
      I.asks .isFeatureEnabled [v] = some r → r = .bool false
  /-- A feature that the build lacks is enabled when the extension is that stands for it. -/
  legacy : ∀ {f ext : String} {v r : Value α}, b.availability.featureDefined b.config f = false →
    b.config.legacyAlias? f = some ext → I.name f = some v →
      I.asks .isFeatureEnabled [v] = some r →
        ∃ w, I.name ext = some w ∧ I.asks .isExtEnabled [w] = some r
  /-- The chain of the subject has no structure that the build lacks. -/
  chain : ∀ {s : String} {v r : Value α}, b.availability.structDefined b.config s = false →
    I.name s = some v → I.asks .hasPnext [v] = some r → r = .bool false
  /-- No chain has a structure that the build lacks. -/
  chainOf : ∀ {s : String} {u v r : Value α}, b.availability.structDefined b.config s = false →
    I.name s = some v → I.asksOf .hasPnext u [v] = some r → r = .bool false
  /-- No flags include a bit that the build lacks. -/
  bit : ∀ {x : String} {u v r : Value α}, b.availability.enumValueDefined b.config x = false →
    I.name x = some v → I.asksOf .hasBit u [v] = some r → r = .bool false
  /-- Nothing equals an enumeration value that the build lacks. -/
  value : ∀ {x : String} {u v w r : Value α}, b.availability.isEnumValue x = true →
    b.availability.enumValueDefined b.config x = false → I.name x = some u → (u = v ∨ u = w) →
      (I.comparison [.eq] [v, w] = some r → r = .bool false) ∧
      (I.comparison [.notEq] [v, w] = some r → r = .bool true)

end Interpretation

namespace Expr

variable {α : Type}

mutual

/-- The value of an expression. -/
def eval (I : Interpretation α) (env : Env α) : Expr → Option (Value α)
  | boolOp _ op values => (evalList I env values).bind (Value.joined op)
  | binary _ left op right => do I.binary op (← eval I env left) (← eval I env right)
  | unary _ op operand => (eval I env operand).bind fun v =>
    if op = .not then v.negated else I.unary op v
  | compare _ left ops comparators => do
    I.comparison ops ((← eval I env left) :: (← evalList I env comparators))
  | call _ func args => do I.call (← eval I env func) (← evalList I env args)
  | member _ value attr => (eval I env value).bind (I.member attr)
  | subscript _ value index => do I.element (← eval I env value) (← eval I env index)
  | ifExp _ test body orelse => ((eval I env test).bind Value.bool?).bind fun c =>
    if c then eval I env body else eval I env orelse
  | name _ id => if id = Predicate.require.name then none else (env id).or (I.name id)
  | const _ (.bool b) => some (.bool b)
  | const _ c => I.const c
  | tuple _ _ | list _ _ | slice _ _ _ _ => none

/-- The values of expressions. -/
def evalList (I : Interpretation α) (env : Env α) : List Expr → Option (List (Value α))
  | [] => some []
  | e :: es => do return (← eval I env e) :: (← evalList I env es)

end

section

variable {I : Interpretation α} {env : Env α}

/-- Values of a list are those of its first expression and the others. -/
theorem evalList_cons_eq_some {e : Expr} {es : List Expr} {vs : List (Value α)} :
    evalList I env (e :: es) = some vs ↔
      ∃ v ws, e.eval I env = some v ∧ evalList I env es = some ws ∧ vs = v :: ws := by
  simp only [evalList, Option.bind_eq_bind, Option.bind_eq_some_iff, Option.pure_def,
    Option.some.injEq]
  constructor
  · rintro ⟨v, hv, ws, hws, rfl⟩
    exact ⟨v, ws, hv, hws, rfl⟩
  · rintro ⟨v, ws, hv, hws, rfl⟩
    exact ⟨v, hv, ws, hws, rfl⟩

/-- A call has a value if what is called and its arguments have. -/
theorem eval_call_eq_some {p : Pos} {func : Expr} {args : List Expr} {r : Value α} :
    (call p func args).eval I env = some r ↔ ∃ f vs, func.eval I env = some f ∧
      evalList I env args = some vs ∧ I.call f vs = some r := by
  simp only [eval, Option.bind_eq_bind, Option.bind_eq_some_iff]
  constructor
  · rintro ⟨f, hf, vs, hvs, hr⟩
    exact ⟨f, vs, hf, hvs, hr⟩
  · rintro ⟨f, vs, hf, hvs, hr⟩
    exact ⟨f, hf, vs, hvs, hr⟩

/-- A single expression has one value. -/
theorem evalList_singleton_eq_some {e : Expr} {vs : List (Value α)} :
    evalList I env [e] = some vs ↔ ∃ v, e.eval I env = some v ∧ vs = [v] := by
  rw [evalList_cons_eq_some]
  constructor
  · rintro ⟨v, ws, hv, hws, rfl⟩
    obtain rfl : ws = [] := by simpa [evalList] using hws
    exact ⟨v, hv, rfl⟩
  · rintro ⟨v, hv, rfl⟩
    exact ⟨v, [], hv, rfl, rfl⟩

/-- The opposite of a test has the opposite value. -/
theorem eval_negated {e : Expr} {c : Bool} (h : e.eval I env = some (.bool c)) :
    e.negated.eval I env = some (.bool !c) := by
  unfold negated
  split
  · simp only [eval, if_true, Option.bind_eq_some_iff] at h
    obtain ⟨v, hv, hn⟩ := h
    obtain ⟨d, rfl, hd⟩ := Value.negated_eq_some.mp hn
    obtain rfl : c = !d := by simpa using hd
    rw [hv, Bool.not_not]
  · simp [eval, h, Value.negated, Value.bool?]

end

/-- What a call requires, if it is a requirement. -/
def requirement? : Expr → Option Expr
  | call _ (name _ id) [arg] => if id = Predicate.require.name then some arg else none
  | _ => none

end Expr

/-- What a run of statements comes to. -/
structure Outcome (α : Type) where
  /-- The values that are required, in order. -/
  required : List (Value α)
  /-- The bindings behind the statements. -/
  env : Env α

namespace Stmt

variable {α : Type}

/-- What is required by all the rounds of a loop. -/
def rounds (body : Value α → Option (List (Value α))) : List (Value α) → Option (List (Value α))
  | [] => some []
  | v :: vs => do return (← body v) ++ (← rounds body vs)

mutual

/-- Run a statement. -/
def run (I : Interpretation α) (env : Env α) : Stmt → Option (Outcome α)
  | assign _ [.name _ id] value => (value.eval I env).map fun v => ⟨[], env.bind id v⟩
  | ifElse _ test body orelse => ((test.eval I env).bind Value.bool?).bind fun c =>
    (if c then runBlock I env body else runBlock I env orelse).map fun x => ⟨x.required, env⟩
  | forEach _ (.name _ id) iter body [] => ((iter.eval I env).bind I.elements).bind fun vs =>
    (rounds (fun v => (runBlock I (env.bind id v) body).map (·.required)) vs).map fun rs =>
      ⟨rs, env⟩
  | expr p value =>
    if (expr p value).isComment then some ⟨[], env⟩
    else match value.requirement? with
      | some arg => (arg.eval I env).map fun v => ⟨[v], env⟩
      | none => (value.eval I env).map fun _ => ⟨[], env⟩
  | pass _ => some ⟨[], env⟩
  | _ => none

/-- Run the statements of a block. -/
def runBlock (I : Interpretation α) (env : Env α) : Block → Option (Outcome α)
  | [] => some ⟨[], env⟩
  | s :: ss => (run I env s).bind fun x =>
    (runBlock I x.env ss).map fun y => ⟨x.required ++ y.required, y.env⟩

end

section

variable {I : Interpretation α} {env : Env α} {x : Outcome α}

/-- Rounds that require nothing require nothing together. -/
theorem rounds_nothing (vs : List (Value α)) : rounds (fun _ => some []) vs = some [] := by
  induction vs with
  | nil => rfl
  | cons v vs ih => simp [rounds, ih]

/-- Nothing is required by nothing. -/
@[simp] theorem runBlock_nil : runBlock I env [] = some ⟨[], env⟩ := rfl

/-- A block runs if its first statement does, and the others behind it. -/
theorem runBlock_cons_eq_some {s : Stmt} {ss : Block} :
    runBlock I env (s :: ss) = some x ↔ ∃ y z, run I env s = some y ∧
      runBlock I y.env ss = some z ∧ x = ⟨y.required ++ z.required, z.env⟩ := by
  simp only [runBlock, Option.bind_eq_some_iff, Option.map_eq_some_iff]
  constructor
  · rintro ⟨y, hy, z, hz, rfl⟩
    exact ⟨y, z, hy, hz, rfl⟩
  · rintro ⟨y, z, hy, hz, rfl⟩
    exact ⟨y, hy, z, hz, rfl⟩

/-- A block of one statement runs as the statement does. -/
@[simp] theorem runBlock_singleton (s : Stmt) : runBlock I env [s] = run I env s := by
  cases h : run I env s <;> simp [runBlock, h]

/-- Statements run before others. -/
theorem runBlock_append (b c : Block) : runBlock I env (b ++ c) =
    (runBlock I env b).bind fun y =>
      (runBlock I y.env c).map fun z => ⟨y.required ++ z.required, z.env⟩ := by
  induction b generalizing env with
  | nil => simp
  | cons s ss ih =>
    rw [List.cons_append, runBlock, runBlock]
    cases run I env s with
    | none => rfl
    | some y =>
      rw [Option.bind_some, Option.bind_some, ih]
      cases runBlock I y.env ss with
      | none => rfl
      | some z => cases h : runBlock I z.env c <;> simp [h]

/-- An assignment binds one name to the value. -/
theorem run_assign_eq_some {p : Pos} {targets : List Expr} {value : Expr} :
    run I env (assign p targets value) = some x ↔ ∃ q id v, targets = [.name q id] ∧
      value.eval I env = some v ∧ x = ⟨[], env.bind id v⟩ := by
  constructor
  · intro h
    unfold run at h
    split at h
    case h_1 heq =>
      cases heq
      obtain ⟨v, hv, rfl⟩ := Option.map_eq_some_iff.mp h
      exact ⟨_, _, v, rfl, hv, rfl⟩
    all_goals contradiction
  · rintro ⟨q, id, v, rfl, hv, rfl⟩
    simp [run, hv]

/-- An `if` runs one of its blocks. -/
theorem run_ifElse_eq_some {p : Pos} {test : Expr} {body orelse : Block} :
    run I env (ifElse p test body orelse) = some x ↔ ∃ c y, test.eval I env = some (.bool c) ∧
      runBlock I env (if c then body else orelse) = some y ∧ x = ⟨y.required, env⟩ := by
  simp only [run, Option.bind_eq_some_iff, Option.map_eq_some_iff, Value.bool?_eq_some]
  constructor
  · rintro ⟨c, ⟨_, hc, rfl⟩, y, hy, rfl⟩
    refine ⟨c, y, hc, ?_, rfl⟩
    cases c <;> exact hy
  · rintro ⟨c, y, hc, hy, rfl⟩
    refine ⟨c, ⟨_, hc, rfl⟩, y, ?_, rfl⟩
    cases c <;> exact hy

/-- A loop runs its block for every value that it visits. -/
theorem run_forEach_eq_some {p : Pos} {target iter : Expr} {body orelse : Block} :
    run I env (forEach p target iter body orelse) = some x ↔ ∃ q id u vs rs,
      target = .name q id ∧ orelse = [] ∧ iter.eval I env = some u ∧ I.elements u = some vs ∧
      rounds (fun v => (runBlock I (env.bind id v) body).map (·.required)) vs = some rs ∧
      x = ⟨rs, env⟩ := by
  constructor
  · intro h
    unfold run at h
    split at h
    case h_3 heq =>
      cases heq
      obtain ⟨vs, hvs, h⟩ := Option.bind_eq_some_iff.mp h
      obtain ⟨u, hu, hvs⟩ := Option.bind_eq_some_iff.mp hvs
      obtain ⟨rs, hrs, rfl⟩ := Option.map_eq_some_iff.mp h
      exact ⟨_, _, u, vs, rs, rfl, rfl, hu, hvs, hrs, rfl⟩
    all_goals contradiction
  · rintro ⟨q, id, u, vs, rs, rfl, rfl, hu, hvs, hrs, rfl⟩
    simp [run, hu, hvs, hrs]

/-- A comment requires nothing. -/
theorem run_of_isComment {s : Stmt} (h : s.isComment) : run I env s = some ⟨[], env⟩ := by
  cases s with
  | expr p value => simp [run, h]
  | _ => simp [isComment, comment?] at h

/-- Comments require nothing. -/
theorem runBlock_of_comments {b : Block} (h : b.all isComment) :
    runBlock I env b = some ⟨[], env⟩ := by
  induction b with
  | nil => rfl
  | cons s ss ih =>
    rw [List.all_cons, Bool.and_eq_true] at h
    exact runBlock_cons_eq_some.mpr ⟨⟨[], env⟩, ⟨[], env⟩, run_of_isComment h.1, ih h.2, rfl⟩

end

end Stmt

/-- The required values that are not `True`. -/
def Outcome.unmet {α : Type} (x : Outcome α) : List (Value α) := x.required.filter (!·.isTrue)

/-- The unmet requirements of a whole statement, in order; `none` if its run is undefined. -/
def Block.unmet {α : Type} (I : Interpretation α) (b : Block) : Option (List (Value α)) :=
  (Stmt.runBlock I .empty b).map Outcome.unmet

/-- The unmet requirements of what a build leaves of a statement; nothing is required by nothing. -/
def Stripped.unmet {α : Type} (I : Interpretation α) (x : Stripped) : Option (List (Value α)) :=
  match x.block with
  | some b => b.unmet I
  | none => some []

end ValidUsage
