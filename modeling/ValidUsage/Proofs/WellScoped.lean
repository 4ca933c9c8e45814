import ValidUsage.Proofs.Accepted

/-!
# Accepted statements are well scoped

The scope with which a statement is checked has, at every place, the names that the text before the
place binds. So what is found out about an expression in its scope says something about the text: a
name that is read is bound where it is read, or belongs to the subject or to the API.
-/

namespace ValidUsage

/-- Whether an expression is of a form that the language has. -/
def Expr.isInLanguage : Expr → Bool
  | tuple .. | list .. | slice .. => false
  | compare _ _ ops comparators =>
    ops.length == 1 && comparators.length == 1 && ops.all (!·.isRefused)
  | _ => true

/-- Whether a statement is of a form that the language has, its blocks and expressions aside. -/
def Stmt.isInLanguage : Stmt → Bool
  | assign _ targets _ => targets.length == 1
  | forEach _ _ _ _ orelse => orelse.isEmpty
  | ifElse .. | expr .. | pass _ => true
  | update .. | whileDo .. | breakOut _ | nextRound _ => false

/-- Whether a target is a name that may be bound where some names are visible. -/
def Locals.admits (s : Subject) (visible : Locals) (target : Expr) : Bool :=
  target.name?.any fun id =>
    !visible.binds id && !isPredicateName id && !s.isParameter id && !s.isToken id

namespace Verification

/-- Whether a scope has the names that are visible, none of them that of a predicate. -/
structure Agrees (scope : Scope) (visible : Locals) : Prop where
  /-- The names are those that are visible. -/
  names : scope.map (fun b => (⟨b.name, b.ofLoop⟩ : Local)) = visible
  /-- No name is that of a predicate. -/
  free : IsFree scope

/-- What is found out about a part of an accepted statement: how its expressions are used, what it
binds, its statements and the number of its requirements. -/
structure Finds (s : Subject) (types : List (Expr × Ty)) (uses : List Use)
    (targets : List (Locals × Expr)) (statements : List Stmt) (requires : Nat) : Prop where
  /-- Every use is accepted in a scope with the names that are visible. -/
  accepts : ∀ u ∈ uses, u.role ≠ .text →
    ∃ scope, Agrees scope u.visible ∧ Accepts s scope types (u.role, u.expr)
  /-- Every target may be bound. -/
  admits : ∀ t ∈ targets, t.1.admits s t.2 = true
  /-- Every statement is of a form that the language has. -/
  forms : ∀ x ∈ statements, x.isInLanguage = true
  /-- What counts as a requirement is one. -/
  requirement : requires ≠ 0 → ∃ u ∈ uses, u.role ≠ .text ∧ IsRequirement u.expr

variable {s : Subject} {scope : Scope} {visible : Locals} {types : List (Expr × Ty)}

/-- There is nothing to find out where nothing is. -/
theorem Finds.nothing : Finds s types [] [] [] 0 := ⟨by simp, by simp, by simp, by simp⟩

/-- What is found out about two parts is put together. -/
theorem Finds.append {us us' : List Use} {ts ts' : List (Locals × Expr)} {xs xs' : List Stmt}
    {n n' : Nat} (h : Finds s types us ts xs n) (h' : Finds s types us' ts' xs' n') :
    Finds s types (us ++ us') (ts ++ ts') (xs ++ xs') (n + n') where
  accepts u hu := (List.mem_append.1 hu).elim (h.accepts u) (h'.accepts u)
  admits t ht := (List.mem_append.1 ht).elim (h.admits t) (h'.admits t)
  forms x hx := (List.mem_append.1 hx).elim (h.forms x) (h'.forms x)
  requirement hn := by
    by_cases hz : n = 0
    · obtain ⟨u, hu, hr⟩ := h'.requirement (by omega)
      exact ⟨u, List.mem_append_right _ hu, hr⟩
    · obtain ⟨u, hu, hr⟩ := h.requirement hz
      exact ⟨u, List.mem_append_left _ hu, hr⟩

/-- A statement of the language besides. -/
theorem Finds.stmt {us : List Use} {ts : List (Locals × Expr)} {xs : List Stmt} {n : Nat}
    {x : Stmt} (hx : x.isInLanguage = true) (h : Finds s types us ts xs n) :
    Finds s types us ts (x :: xs) n :=
  ⟨h.accepts, h.admits, List.forall_mem_cons.2 ⟨hx, h.forms⟩, h.requirement⟩

/-- A target besides. -/
theorem Finds.target {us : List Use} {ts : List (Locals × Expr)} {xs : List Stmt} {n : Nat}
    {target : Expr} (ht : visible.admits s target = true) (h : Finds s types us ts xs n) :
    Finds s types us ((visible, target) :: ts) xs n :=
  ⟨h.accepts, List.forall_mem_cons.2 ⟨ht, h.admits⟩, h.forms, h.requirement⟩

/-- What acceptance of an expression says of its uses. -/
theorem Finds.expr {role : Role} {e : Expr} (ha : Agrees scope visible) (hr : role ≠ .text)
    (h : Accepts s scope types (role, e)) (ht : (checkExpr s scope e).types ⊆ types) :
    Finds s types (Stmt.usesAt visible role e) [] [] (checkExpr s scope e).requires where
  accepts u hu hne := by
    obtain ⟨q, hq, rfl⟩ := List.mem_map.1 hu
    exact ⟨scope, ha, accepts_uses ha.free hr h ht q hq hne⟩
  admits := by simp
  forms := by simp
  requirement hn := by
    obtain ⟨q, hq, hne, hreq⟩ := exists_requirement ha.free hr h.clean hn
    exact ⟨_, List.mem_map_of_mem hq, hne, hreq⟩

/-- A name is looked up alike in a scope and among the names that it makes visible. -/
theorem Agrees.find? (h : Agrees scope visible) (id : String) :
    List.find? (·.name == id) visible =
      (scope.find? id).map fun b => (⟨b.name, b.ofLoop⟩ : Local) := by
  rw [← h.names, List.find?_map]
  rfl

/-- Both bind the same names. -/
theorem Agrees.binds (h : Agrees scope visible) (id : String) :
    visible.binds id = scope.binds id := by
  have : visible.binds id = (List.find? (·.name == id) visible).isSome :=
    (List.isSome_find? ..).symm
  rw [this, h.find? id, Option.isSome_map]
  rfl

/-- Both have the same loop variables. -/
theorem Agrees.isLoopVariable (h : Agrees scope visible) (id : String) :
    visible.isLoopVariable id = scope.isLoopVariable id := by
  rw [Locals.isLoopVariable, h.find? id, Scope.isLoopVariable]
  cases scope.find? id <;> rfl

@[simp] theorem quiet_checkTarget (target : Expr) :
    (checkTarget s scope target).requires = 0 ∧ (checkTarget s scope target).types = [] := by
  unfold checkTarget
  split
  · simp
  · split <;> simp

/-- A target that is accepted is a name that may be bound, and it is bound from there on. -/
theorem Agrees.bind {target : Expr} (h : Agrees scope visible)
    (hc : (checkTarget s scope target).issues = []) (t : Ty) (ofLoop : Bool) :
    visible.admits s target = true ∧
      Agrees (Scope.bind? scope (checkTarget s scope target).value t ofLoop)
        (Local.ofTarget ofLoop target ++ visible) := by
  cases hn : target.name? with
  | none => simp [checkTarget, hn] at hc
  | some id =>
    cases hm : bindingMistake? s scope id with
    | some m => simp [checkTarget, hn, hm] at hc
    | none =>
      have hfree : isPredicateName id = false ∧ s.isParameter id = false ∧ s.isToken id = false ∧
          scope.binds id = false := by
        unfold bindingMistake? at hm
        repeat' split at hm
        all_goals simp_all
      obtain ⟨hp, hpar, htok, hb⟩ := hfree
      refine ⟨by simp [Locals.admits, hn, h.binds, hp, hpar, htok, hb], ?_, ?_⟩
      · simp [checkTarget, hn, hm, Scope.bind?, Local.ofTarget, h.names]
      · intro b hb
        simp only [checkTarget, hn, hm, Checked.value_pure, Scope.bind?, List.mem_cons] at hb
        rcases hb with rfl | hb
        · exact hp
        · exact h.free b hb

/-- What is found out about a statement in the blocks of which it is found out. -/
def FindsIn (s : Subject) (types : List (Expr × Ty)) (x : Stmt) : Prop :=
  ∀ scope visible, Agrees scope visible → (checkStmt s scope x).issues = [] →
    (checkStmt s scope x).types ⊆ types →
      Finds s types (x.uses visible) (x.targets visible) x.nested (checkStmt s scope x).requires ∧
        Agrees (checkStmt s scope x).value (x.assigns ++ visible)

private theorem finds_block {b : Block} (h : ∀ x ∈ b, FindsIn s types x) (ha : Agrees scope visible)
    (hc : (checkStmts s scope b).issues = []) (ht : (checkStmts s scope b).types ⊆ types) :
    Finds s types (Stmt.usesBlock visible b) (Stmt.targetsBlock visible b) (Stmt.nestedBlock b)
      (checkStmts s scope b).requires := by
  induction b generalizing scope visible with
  | nil => exact Finds.nothing
  | cons x xs ih =>
    simp only [checkStmts, Checked.issues_bind, List.append_eq_nil_iff] at hc
    simp only [checkStmts, Checked.types_bind, List.append_subset] at ht
    obtain ⟨hx, ha'⟩ := h x List.mem_cons_self scope visible ha hc.1 ht.1
    exact hx.append (ih (fun y hy => h y (List.mem_cons_of_mem _ hy)) ha' hc.2 ht.2)

/-- What acceptance of a statement says. -/
theorem findsIn (s : Subject) (types : List (Expr × Ty)) (x : Stmt) : FindsIn s types x := by
  induction x using Stmt.partsInduction with
  | ifElse p test body orelse ihb iho =>
    intro scope visible ha hc ht
    simp only [checkStmt, Checked.issues_bind, Checked.issues_pure, List.append_nil,
      List.append_eq_nil_iff] at hc
    simp only [checkStmt, Checked.types_bind, Checked.types_pure, List.append_nil,
      List.append_subset] at ht
    obtain ⟨hc, hj, hb, ho⟩ := hc
    obtain ⟨tc, -, tb, te⟩ := ht
    have htest : Finds s types (Stmt.usesAt visible .condition test) [] [] _ :=
      .expr ha (by decide) ⟨hc, ne_void_of_judgeCondition hj⟩ tc
    have hblocks := (finds_block ihb ha hb tb).append (finds_block iho ha ho te)
    refine ⟨?_, ha⟩
    have := Finds.stmt (x := .ifElse p test body orelse) rfl (htest.append hblocks)
    simpa [checkStmt, Stmt.uses, Stmt.targets, Stmt.nested] using this
  | forEach p target iter body orelse ihb iho =>
    intro scope visible ha hc ht
    simp only [checkStmt, Checked.issues_bind, Checked.issues_pure, List.append_nil,
      List.append_eq_nil_iff] at hc
    simp only [checkStmt, Checked.types_bind, Checked.types_pure, List.append_nil,
      List.append_subset] at ht
    obtain ⟨helse, htarget, hiter, hbody⟩ := hc
    obtain ⟨-, -, ti, tb⟩ := ht
    obtain rfl : orelse = [] := by simpa using helse
    obtain ⟨hadmits, hinner⟩ := ha.bind htarget (checkIterator s scope iter).value true
    obtain ⟨hic, hiv, hit, hir⟩ := clean_of_checkIterator hiter
    have huses : Finds s types (Stmt.usesAt visible .iterator iter) [] [] _ :=
      .expr ha (by decide) ⟨hic, hiv⟩ (List.Subset.trans hit ti)
    have hblock := (huses.append (finds_block ihb hinner hbody tb)).target hadmits
    refine ⟨?_, ha⟩
    have := Finds.stmt (x := .forEach p target iter body []) rfl hblock
    simpa [checkStmt, Stmt.uses, Stmt.targets, Stmt.nested, Stmt.usesBlock, Stmt.targetsBlock,
      Stmt.nestedBlock, hir] using this
  | assign p targets value =>
    intro scope visible ha hc ht
    simp only [checkStmt, Checked.issues_bind, List.append_eq_nil_iff] at hc
    simp only [checkStmt, Checked.types_bind, List.append_subset] at ht
    obtain ⟨hv, hc⟩ := hc
    split at hc
    · rename_i target
      simp only [Checked.issues_bind, List.append_eq_nil_iff] at hc
      obtain ⟨hadmits, hafter⟩ := ha.bind hc.1 (checkExpr s scope value).value false
      have huses : Finds s types (Stmt.usesAt visible .assigned value) [] [] _ :=
        .expr ha (by decide) ⟨hv, trivial⟩ ht.1
      have := Finds.stmt (x := .assign p [target] value) rfl (huses.target hadmits)
      refine ⟨?_, ?_⟩
      · simpa [checkStmt, Stmt.uses, Stmt.targets, Stmt.nested] using this
      · simpa [checkStmt, Stmt.assigns] using hafter
    · simp at hc
  | expr p value =>
    intro scope visible ha hc ht
    cases hcom : (Stmt.expr p value).isComment with
    | true =>
      refine ⟨?_, by simpa [checkStmt, hcom, Stmt.assigns] using ha⟩
      simpa [checkStmt, Stmt.uses, Stmt.targets, Stmt.nested, hcom] using
        Finds.nothing.stmt (x := .expr p value) rfl
    | false =>
      simp only [checkStmt, hcom, Bool.false_eq_true, if_false, Checked.issues_bind,
        Checked.issues_pure, List.append_nil] at hc
      simp only [checkStmt, hcom, Bool.false_eq_true, if_false, Checked.types_bind,
        Checked.types_pure, List.append_nil] at ht
      have huses : Finds s types (Stmt.usesAt visible .statement value) [] [] _ :=
        .expr ha (by decide) ⟨hc, trivial⟩ ht
      refine ⟨?_, by simpa [checkStmt, hcom, Stmt.assigns] using ha⟩
      have := Finds.stmt (x := .expr p value) rfl huses
      simpa [checkStmt, Stmt.uses, Stmt.targets, Stmt.nested, hcom] using this
  | pass p =>
    intro scope visible ha hc ht
    exact ⟨Finds.nothing.stmt rfl, ha⟩
  | _ =>
    intro scope visible ha hc ht
    simp [checkStmt] at hc

/-- What is accepted is of a form that the language has. -/
theorem isInLanguage_of_clean {e : Expr} (hc : (checkExpr s scope e).issues = []) :
    e.isInLanguage = true := by
  cases e with
  | compare p left ops comparators =>
    simp only [checkExpr, Checked.issues_typed, Checked.issues_bind, Checked.issues_pure,
      List.append_nil, List.append_eq_nil_iff] at hc
    obtain ⟨op, right, r, rfl, rfl, -, hj⟩ := eq_of_judgeComparisons hc.2.2
    cases hop : op.isRefused with
    | true => simp [judgeComparison, hop] at hj
    | false => simp [Expr.isInLanguage, hop]
  | tuple => simp [checkExpr] at hc
  | list => simp [checkExpr] at hc
  | slice => simp [checkExpr] at hc
  | _ => rfl

end Verification

/-- A path is in the language. -/
theorem Expr.isInLanguage_of_isPath {e : Expr} (h : e.isPath = true) : e.isInLanguage = true := by
  cases e <;> first | rfl | simp [isPath] at h

namespace Stmt

/-- Whether a part of an expression is accounted for by uses and targets. -/
def Accounts (us : List Use) (ts : List (Locals × Expr)) (e : Expr) : Prop :=
  e.isInLanguage = true ∨ (∃ u ∈ us, u.expr = e) ∨ ∃ t ∈ ts, e ∈ t.2.walk

/-- What uses and targets account for is accounted for by more of them. -/
theorem Accounts.mono {us us' : List Use} {ts ts' : List (Locals × Expr)} {e : Expr}
    (h : Accounts us ts e) (hu : us ⊆ us') (ht : ts ⊆ ts') : Accounts us' ts' e := by
  rcases h with h | ⟨u, hu', h⟩ | ⟨t, ht', h⟩
  · exact .inl h
  · exact .inr (.inl ⟨u, hu hu', h⟩)
  · exact .inr (.inr ⟨t, ht ht', h⟩)

private theorem accounts_usesAt {visible : Locals} {role : Role} {e x : Expr} (h : x ∈ e.walk) :
    Accounts (usesAt visible role e) [] x := by
  rcases Expr.exists_mem_uses role h with ⟨u, hu, rfl⟩ | ⟨h, -⟩
  · exact .inr (.inl ⟨_, List.mem_map_of_mem hu, rfl⟩)
  · exact .inl (Expr.isInLanguage_of_isPath h)

private theorem isInLanguage_of_isComment {p : Pos} {value x : Expr}
    (h : (expr p value).isComment = true)
    (hx : x ∈ value.walk) : x.isInLanguage = true := by
  obtain ⟨text, ht⟩ := Option.isSome_iff_exists.1 h
  obtain ⟨p', q, r, rfl⟩ := eq_call_of_comment? ht
  simp only [Expr.walk, Expr.walkList, List.mem_cons, List.append_nil, List.cons_append,
    List.nil_append, List.not_mem_nil, or_false] at hx
  rcases hx with rfl | rfl | rfl <;> rfl

/-- What the uses and targets of statements account for, those of their block do. -/
theorem accounts_block {b : Block} {x : Expr}
    (h : ∀ s ∈ b, ∀ visible, x ∈ s.walk → Accounts (s.uses visible) (s.targets visible) x)
    (visible : Locals) (hx : x ∈ walkBlock b) :
    Accounts (usesBlock visible b) (targetsBlock visible b) x := by
  induction b generalizing visible with
  | nil => simp [walkBlock] at hx
  | cons s ss ih =>
    rcases List.mem_append.1 hx with hx | hx
    · exact (h s List.mem_cons_self visible hx).mono (List.subset_append_left _ _)
        (List.subset_append_left _ _)
    · exact (ih (fun y hy => h y (List.mem_cons_of_mem _ hy)) _ hx).mono
        (List.subset_append_right _ _) (List.subset_append_right _ _)

/-- Every expression in a statement is used or bound there, save what is called and comments. -/
theorem accounts_of_mem_walk {x : Expr} (s : Stmt) :
    ∀ visible, x ∈ s.walk → Accounts (s.uses visible) (s.targets visible) x := by
  induction s using Stmt.partsInduction with
  | assign p targets value =>
    intro visible hx
    rcases List.mem_append.1 hx with hx | hx
    · obtain ⟨target, ht, hx⟩ := Expr.mem_walkList.1 hx
      exact .inr (.inr ⟨_, List.mem_map_of_mem ht, hx⟩)
    · exact (accounts_usesAt hx).mono (List.Subset.refl _) (List.nil_subset _)
  | update p target op value =>
    intro visible hx
    rcases List.mem_append.1 hx with hx | hx
    · exact .inr (.inr ⟨_, List.mem_singleton_self _, hx⟩)
    · exact (accounts_usesAt hx).mono (List.subset_append_right _ _) (List.nil_subset _)
  | ifElse p test body orelse ihb iho =>
    intro visible hx
    simp only [walk, List.mem_append] at hx
    rcases hx with hx | hx | hx
    · exact (accounts_usesAt hx).mono (List.subset_append_left _ _) (List.nil_subset _)
    · exact (accounts_block ihb visible hx).mono (by simp [uses]) (List.subset_append_left _ _)
    · exact (accounts_block iho visible hx).mono (by simp [uses]) (List.subset_append_right _ _)
  | forEach p target iter body orelse ihb iho =>
    intro visible hx
    simp only [walk, List.mem_append] at hx
    rcases hx with hx | hx | hx | hx
    · exact .inr (.inr ⟨_, List.mem_cons_self, hx⟩)
    · exact (accounts_usesAt hx).mono (List.subset_append_left _ _) (List.nil_subset _)
    · exact (accounts_block ihb (Local.ofTarget true target ++ visible) hx).mono
        (by simp [uses]) (by simp [targets])
    · exact (accounts_block iho visible hx).mono (by simp [uses]) (by simp [targets])
  | whileDo p test body orelse ihb iho =>
    intro visible hx
    simp only [walk, List.mem_append] at hx
    rcases hx with hx | hx | hx
    · exact (accounts_usesAt hx).mono (List.subset_append_left _ _) (List.nil_subset _)
    · exact (accounts_block ihb visible hx).mono (by simp [uses]) (List.subset_append_left _ _)
    · exact (accounts_block iho visible hx).mono (by simp [uses]) (List.subset_append_right _ _)
  | expr p value =>
    intro visible hx
    cases hc : (expr p value).isComment with
    | true => exact .inl (isInLanguage_of_isComment hc hx)
    | false =>
      have h : Accounts (usesAt visible .statement value) [] x := accounts_usesAt hx
      simpa [uses, targets, hc] using h
  | pass | breakOut | nextRound => simp [walk]

/-- Whether a use is one of an expression among some. -/
def StandsIn (es : List Expr) (u : Use) : Prop :=
  ∃ visible role e, role ≠ .text ∧ e.walk ⊆ es ∧ u ∈ usesAt visible role e

/-- A use of an expression among some is one among more. -/
theorem StandsIn.mono {es es' : List Expr} {u : Use} (h : StandsIn es u) (hs : es ⊆ es') :
    StandsIn es' u := by
  obtain ⟨visible, role, e, hr, he, hu⟩ := h
  exact ⟨visible, role, e, hr, List.Subset.trans he hs, hu⟩

private theorem stands_usesAt {es : List Expr} {visible : Locals} {role : Role} {e : Expr}
    (hr : role ≠ .text) (he : e.walk ⊆ es) : ∀ u ∈ usesAt visible role e, StandsIn es u :=
  fun _ hu => ⟨visible, role, e, hr, he, hu⟩

private theorem stands_block {b : Block}
    (h : ∀ s ∈ b, ∀ visible, ∀ u ∈ s.uses visible, StandsIn s.walk u) (visible : Locals) :
    ∀ u ∈ usesBlock visible b, StandsIn (walkBlock b) u := by
  induction b generalizing visible with
  | nil => simp [usesBlock]
  | cons s ss ih =>
    intro u hu
    rcases List.mem_append.1 hu with hu | hu
    · exact (h s List.mem_cons_self visible u hu).mono (List.subset_append_left _ _)
    · exact (ih (fun y hy => h y (List.mem_cons_of_mem _ hy)) _ u hu).mono
        (List.subset_append_right _ _)

/-- A use in a statement is one of an expression of the statement. -/
theorem stands_of_mem_uses (s : Stmt) : ∀ visible, ∀ u ∈ s.uses visible, StandsIn s.walk u := by
  induction s using Stmt.partsInduction with
  | assign p targets value =>
    intro visible
    exact stands_usesAt (by decide) (List.subset_append_right _ _)
  | update p target op value =>
    intro visible u hu
    rcases List.mem_append.1 hu with hu | hu
    · exact stands_usesAt (by decide) (List.subset_append_left _ _) u hu
    · exact stands_usesAt (by decide) (List.subset_append_right _ _) u hu
  | ifElse p test body orelse ihb iho | whileDo p test body orelse ihb iho =>
    intro visible u hu
    simp only [uses, List.mem_append] at hu
    rcases hu with hu | hu | hu
    · exact stands_usesAt (by decide) (List.subset_append_left _ _) u hu
    · exact (stands_block ihb visible u hu).mono (by simp [walk])
    · exact (stands_block iho visible u hu).mono (by simp [walk])
  | forEach p target iter body orelse ihb iho =>
    intro visible u hu
    simp only [uses, List.mem_append] at hu
    rcases hu with hu | hu | hu
    · exact stands_usesAt (by decide) (by simp [walk]) u hu
    · exact (stands_block ihb _ u hu).mono fun x hx => by simp [walk, hx]
    · exact (stands_block iho visible u hu).mono fun x hx => by simp [walk, hx]
  | expr p value =>
    intro visible u hu
    cases hc : (expr p value).isComment with
    | true => simp [uses, hc] at hu
    | false =>
      have hu' : u ∈ usesAt visible .statement value := by simpa [uses, hc] using hu
      exact stands_usesAt (by decide) (List.Subset.refl _) u hu'
  | pass | breakOut | nextRound => simp [uses]

end Stmt

namespace Verification

variable {s : Subject} {scope : Scope}

/-- An accepted name is visible, or the subject or the API has it. -/
theorem known_of_clean {p : Pos} {id : String}
    (hc : (checkExpr s scope (.name p id)).issues = []) :
    scope.binds id = true ∨ (s.nameType? id).isSome = true := by
  cases hp : isPredicateName id with
  | true => simp [checkExpr, typeOfName, hp] at hc
  | false =>
    cases hb : scope.find? id with
    | some b => exact .inl (by simp [Scope.binds, hb])
    | none =>
      cases hn : s.nameType? id with
      | some t => exact .inr rfl
      | none => simp [checkExpr, typeOfName, hp, hb, hn] at hc

end Verification

namespace Block

open Verification

/-- Whether a statement is well scoped and in the language. -/
structure WellScoped (s : Subject) (b : Block) : Prop where
  /-- A name that is read is bound where it is read, or the subject or the API has it. -/
  reads : ∀ u ∈ b.uses, ∀ p id, u.expr = .name p id →
    u.visible.binds id = true ∨ (s.nameType? id).isSome = true
  /-- What an assignment or a loop binds is a name, not visible, and not one of a predicate, of the
  subject or of the API. -/
  targets : ∀ t ∈ b.targets, t.1.admits s t.2 = true
  /-- `array_index` is applied to the name of a loop around it. -/
  indices : ∀ u ∈ b.uses, ∀ p q args, u.expr = .call p (.name q Predicate.arrayIndex.name) args →
    ∃ r id, args = [.name r id] ∧ u.visible.isLoopVariable id = true
  /-- Every statement is of a form that the language has. -/
  stmts : ∀ x ∈ b.statements, x.isInLanguage = true
  /-- Every expression is of a form that the language has. -/
  exprs : ∀ x ∈ b.walk, x.isInLanguage = true
  /-- Something is required. -/
  requires : ∃ u ∈ b.uses, u.expr.callName? = some Predicate.require.name

/-- What is found out about an accepted statement. -/
theorem finds_of_isOk {s : Subject} {b : Block} (h : (b.verify s).isOk = true) :
    Finds s (b.verify s).types b.uses b.targets b.statements (b.verify s).requires ∧
      (b.verify s).requires ≠ 0 := by
  have hi : (checkStmts s [] b).issues = [] ∧ (checkStmts s [] b).requires ≠ 0 := by
    simpa [verify, Verification.isOk] using h
  refine ⟨?_, hi.2⟩
  exact finds_block (fun x _ => findsIn s _ x) ⟨rfl, by simp [IsFree]⟩ hi.1 (List.Subset.refl _)

/-- A statement without references to macros has no use in one. -/
theorem ne_text_of_mem_uses {b : Block}
    (h : ∀ x ∈ b.walk, x.callName? ≠ some Predicate.textMacro.name) :
    ∀ u ∈ b.uses, u.role ≠ .text := by
  intro u hu
  obtain ⟨visible, role, e, hr, he, hu⟩ :=
    Stmt.stands_block (fun x _ => Stmt.stands_of_mem_uses x) [] u hu
  obtain ⟨q, hq, rfl⟩ := List.mem_map.1 hu
  exact Expr.ne_text_of_mem_uses hr (fun x hx => h x (he hx)) q hq

/-- An accepted statement without references to macros is well scoped and in the language, and it
requires something. -/
theorem wellScoped_of_isOk {s : Subject} {b : Block} (h : (b.verify s).isOk = true)
    (hm : ∀ x ∈ b.walk, x.callName? ≠ some Predicate.textMacro.name) : b.WellScoped s := by
  obtain ⟨hf, hr⟩ := finds_of_isOk h
  have hn := ne_text_of_mem_uses hm
  refine ⟨?_, hf.admits, ?_, hf.forms, ?_, ?_⟩
  · intro u hu p id he
    obtain ⟨scope, ha, hc, -⟩ := hf.accepts u hu (hn u hu)
    exact ha.binds id ▸ known_of_clean (he ▸ hc)
  · intro u hu p q args he
    obtain ⟨scope, ha, hc, -⟩ := hf.accepts u hu (hn u hu)
    simp only [he] at hc
    obtain ⟨pred, hid, hlen, hindex, -⟩ := clean_call_name hc
    obtain rfl : pred = .arrayIndex := by
      simpa [Predicate.ofName?_name] using hid.symm
    obtain ⟨arg, rfl⟩ := List.length_eq_one_iff.1 hlen
    obtain ⟨r, id, rfl, hloop⟩ :=
      name_of_judgeLoopVariable (hindex rfl) hlen (List.mem_singleton_self arg)
    exact ⟨r, id, rfl, ha.isLoopVariable id ▸ hloop⟩
  · intro x hx
    rcases Stmt.accounts_block (fun s _ visible => Stmt.accounts_of_mem_walk s visible) [] hx with
      hx | ⟨u, hu, rfl⟩ | ⟨t, ht, hx⟩
    · exact hx
    · obtain ⟨scope, -, hc, -⟩ := hf.accepts u hu (hn u hu)
      exact isInLanguage_of_clean hc
    · -- A target is a name.
      obtain ⟨id, hid, -⟩ := Option.any_eq_true _ _ |>.1 (hf.admits t ht)
      cases htarget : t.2 with
      | name p id => exact Expr.isInLanguage_of_isPath (Expr.isPath_of_mem_walk_name (htarget ▸ hx))
      | _ => simp [htarget, Expr.name?] at hid
  · obtain ⟨u, hu, -, hreq⟩ := hf.requirement hr
    exact ⟨u, hu, hreq⟩

/-- A command that is given an array of regions. -/
private def copyRegions : Subject where
  registry := { entities := [{
    name := "vkCmdCopyRegions", category := .command,
    members := [⟨"regionCount", "uint32_t", 0, none, none⟩,
      ⟨"pRegions", "VkRegion", 1, some "regionCount", none⟩] }] }
  api := "vkCmdCopyRegions"

/-- For every region, the requirement that its index is below the number of regions. -/
private def indicesBelowCount : Block :=
  [.forEach .none (.name .none "region") (.name .none "pRegions")
    [.expr .none (.call .none (.name .none "require")
      [.compare .none (.call .none (.name .none "array_index") [.name .none "region"]) [.lt]
        [.name .none "regionCount"]])] []]

/-- A loop whose element is given to `array_index` is well scoped. -/
theorem wellScoped_indicesBelowCount :
    (indicesBelowCount.verify copyRegions).isOk = true ∧
      (∀ x ∈ indicesBelowCount.walk, x.callName? ≠ some Predicate.textMacro.name) ∧
      indicesBelowCount.WellScoped copyRegions := by
  have hok : (indicesBelowCount.verify copyRegions).isOk = true := by decide +kernel
  have hm : ∀ x ∈ indicesBelowCount.walk, x.callName? ≠ some Predicate.textMacro.name := by
    decide +kernel
  exact ⟨hok, hm, wellScoped_of_isOk hok hm⟩

end Block
end ValidUsage
