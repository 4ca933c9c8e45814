import ValidUsage.Proofs.FoldNodes
import ValidUsage.Proofs.ReadComments
import ValidUsage.Proofs.Uncommented

/-!
# Comments and positions do not count

Statements with one bare form differ in comments and positions only. They are checked alike, are
about the same parameter, and are stripped alike for every build.

Folding does not look at comments but to tell whether a block holds anything else. After it no block
holds nothing but comments, and this stays so in the rounds over dead code; hence each round takes
as much away from a block as from its bare form. An assignment to the name that comments call would
be unused or not by the number of comments, and an `else` of a loop is neither folded nor looked
into, so both are left out.
-/

namespace ValidUsage

/-! ## Folding without positions -/

namespace Expr

variable (b : Build) (names : FoldedNames)

@[simp] theorem unplaced_unplaced (e : Expr) : e.unplaced.unplaced = e.unplaced :=
  unplaced_of_turned (e.turned_unplaced _)

@[simp] theorem bool?_unplaced (e : Expr) : e.unplaced.bool? = e.bool? := by
  cases e with
  | const p value => cases value <;> rfl
  | _ => rfl

@[simp] theorem int?_unplaced (e : Expr) : e.unplaced.int? = e.int? := by
  cases e with
  | const p value => cases value <;> rfl
  | _ => rfl

@[simp] theorem pos_unplaced (e : Expr) : e.unplaced.pos = .none := by
  cases e <;> rfl

@[simp] theorem argumentName?_unplaced (args : List Expr) :
    Build.argumentName? (args.map unplaced) = Build.argumentName? args := by
  cases args <;> simp [Build.argumentName?]

private theorem aliasOfFeature?_unplaced (func : Expr) (args : List Expr) :
    b.aliasOfFeature? func.unplaced (args.map unplaced) = b.aliasOfFeature? func args := by
  simp [Build.aliasOfFeature?]

private theorem callCondition?_unplaced (q : Predicate) (args : List Expr) :
    b.callCondition? q (args.map unplaced) = b.callCondition? q args := by
  cases q with
  | isVersion =>
    rcases args with _ | ⟨major, _ | ⟨minor, _ | _⟩⟩ <;> simp [Build.callCondition?]
  | _ => simp [Build.callCondition?]

private theorem methodCondition?_unplaced (m : Method) (args : List Expr) :
    b.methodCondition? m (args.map unplaced) = b.methodCondition? m args := by
  cases m <;> simp [Build.methodCondition?]

private theorem condition?_unplaced (func : Expr) (args : List Expr) :
    b.condition? func.unplaced (args.map unplaced) = b.condition? func args := by
  cases func with
  | name p id => simp only [unplaced_name, Build.condition?, callCondition?_unplaced]
  | member p value attr => simp only [unplaced_member, Build.condition?, methodCondition?_unplaced]
  | _ => rfl

private theorem missingValue?_unplaced (left : Expr) (ops : List CmpOp) (comparators : List Expr) :
    missingValue? b left.unplaced ops (comparators.map unplaced) =
      missingValue? b left ops comparators := by
  have hlacks (e : Expr) : b.lacksValue e.unplaced = b.lacksValue e := by simp [Build.lacksValue]
  rcases comparators with _ | ⟨right, _ | _⟩ <;> rcases ops with _ | ⟨op, _ | _⟩ <;>
    try cases op
  all_goals simp [missingValue?, hlacks]

private theorem unplaced_foldName (p : Pos) (id : String) :
    (foldName names p id).unplaced = foldName names .none id := by
  unfold foldName
  split <;> rfl

private theorem unplaced_foldAlias (p : Pos) (ext : String) (args : List Expr) :
    (foldAlias b names p ext args).unplaced =
      foldAlias b names .none ext (args.map unplaced) := by
  have hpos : ((args.map unplaced).head?.map Expr.pos).getD .none = .none := by
    cases args <;> simp
  unfold foldAlias
  rw [hpos]
  split <;> simp [unplaced_foldName, ofBool]

private theorem unplaced_foldBoolOp (p : Pos) (op : BoolOp) (values : List Expr) :
    (foldBoolOp p op values).unplaced = foldBoolOp .none op (values.map unplaced) := by
  have hany : ((values.map unplaced).any fun v => v.bool? == some (op == .or)) =
      values.any fun v => v.bool? == some (op == .or) := by
    simp [List.any_map, Function.comp_def]
  have hfilter : ((values.map unplaced).filter fun v => v.bool?.isNone) =
      (values.filter fun v => v.bool?.isNone).map unplaced := by
    simp [List.filter_map, Function.comp_def]
  unfold foldBoolOp
  rw [hany, hfilter]
  split
  · rfl
  · generalize (values.filter fun v => v.bool?.isNone) = live
    rcases live with _ | ⟨v, _ | ⟨v', live⟩⟩
    · rfl
    · rfl
    · exact unplaced_boolOp p op (v :: v' :: live)

private theorem unplaced_foldNot (p : Pos) (operand : Expr) :
    (foldNot p operand).unplaced = foldNot .none operand.unplaced := by
  unfold foldNot
  rw [bool?_unplaced]
  split
  · rfl
  · cases operand with
    | unary q op inner => cases op <;> rfl
    | _ => rfl

private theorem unplaced_foldCompare (p : Pos) (left : Expr) (ops : List CmpOp)
    (comparators : List Expr) :
    (foldCompare p left ops comparators).unplaced =
      foldCompare .none left.unplaced ops (comparators.map unplaced) := by
  have hstay := unplaced_compare p left ops comparators
  rcases comparators with _ | ⟨right, _ | _⟩ <;> rcases ops with _ | ⟨op, _ | _⟩ <;>
    try cases op
  all_goals first
    | exact hstay
    | simp only [foldCompare, List.map_cons, List.map_nil, bool?_unplaced]
      split <;> rfl

private theorem unplaced_negated (e : Expr) : e.negated.unplaced = e.unplaced.negated := by
  cases e with
  | unary q op inner => cases op <;> rfl
  | _ => rfl

private theorem fold_unplaced (e : Expr) : e.unplaced.fold b names = (e.fold b names).unplaced := by
  have list {es : List Expr} (ih : ∀ e ∈ es, e.unplaced.fold b names = (e.fold b names).unplaced) :
      foldList b names (es.map unplaced) = (foldList b names es).map unplaced := by
    rw [foldList_eq_map, foldList_eq_map, List.map_map, List.map_map]
    exact List.map_congr_left ih
  induction e using partsInduction with
  | boolOp p op values ih =>
    rw [unplaced_boolOp, fold, fold, list ih, unplaced_foldBoolOp]
  | binary p left op right ihl ihr =>
    rw [unplaced_binary, fold, fold, ihl, ihr, unplaced_binary]
  | unary p op operand ih =>
    rw [unplaced_unary, fold, fold, ih]
    split
    · rw [unplaced_foldNot]
    · rfl
  | compare p left ops comparators ihl ih =>
    rw [unplaced_compare, fold, fold, missingValue?_unplaced, ihl, list ih]
    split
    · rfl
    · rw [unplaced_foldCompare]
  | call p func args ihf ih =>
    rw [unplaced_call, fold, fold, aliasOfFeature?_unplaced, condition?_unplaced, ihf, list ih]
    split
    · rw [unplaced_foldAlias]
    · split
      · rfl
      · rw [unplaced_call]
  | member p value attr ih => rw [unplaced_member, fold, fold, ih, unplaced_member]
  | subscript p value index ihv ihi =>
    rw [unplaced_subscript, fold, fold, ihv, ihi, unplaced_subscript]
  | ifExp p test body orelse iht ihb iho =>
    rw [unplaced_ifExp, fold, fold, iht, ihb, iho, bool?_unplaced]
    split
    · rfl
    · rfl
    · rw [unplaced_ifExp]
  | name p id => rw [unplaced_name, fold, fold, unplaced_foldName]
  | const p value => rfl
  | tuple p elts ih => rw [fold, unplaced_tuple, fold]
  | list p elts ih => rw [fold, unplaced_list, fold]
  | slice p lower upper step ihl ihu ihs => rw [fold, unplaced_slice, fold]

end Expr
/-! ## Bare blocks -/

namespace Stmt

private theorem isComment_bareBy_id (s : Stmt) : (s.bareBy id).isComment = s.isComment := by
  cases s with
  | expr p value => exact isComment_unplaced (.expr p value)
  | _ => rfl

private theorem bareBlockBy_bareBlockBy {b : Block}
    (ih : ∀ s ∈ b, (s.bareBy id).bareBy id = s.bareBy id) :
    bareBlockBy id (bareBlockBy id b) = bareBlockBy id b := by
  induction b with
  | nil => rfl
  | cons s ss ihs =>
    have hss := ihs fun s hs => ih s (List.mem_cons_of_mem _ hs)
    rw [bareBlockBy]
    split
    · exact hss
    · next hs => rw [bareBlockBy, isComment_bareBy_id, if_neg hs, ih s List.mem_cons_self, hss]

private theorem bareBy_bareBy (s : Stmt) : (s.bareBy id).bareBy id = s.bareBy id := by
  have expr := Expr.unplaced_unplaced
  simp only [Expr.unplaced] at expr
  induction s using partsInduction with
  | assign p targets value =>
    simp [bareBy, expr, List.map_map, Function.comp_def]
  | update p target op value => simp only [bareBy, expr]
  | ifElse p test body orelse ihb iho | whileDo p test body orelse ihb iho =>
    simp only [bareBy, expr, bareBlockBy_bareBlockBy ihb, bareBlockBy_bareBlockBy iho]
  | forEach p target iter body orelse ihb iho =>
    simp only [bareBy, expr, bareBlockBy_bareBlockBy ihb, bareBlockBy_bareBlockBy iho]
  | expr p value => exact congrArg (Stmt.expr .none) (expr value)
  | pass | breakOut | nextRound => rfl

end Stmt

namespace Block

open Stmt

private theorem bare_cons_of_comment {s : Stmt} (h : s.isComment = true) (ss : Block) :
    bare (s :: ss) = bare ss := if_pos h

private theorem bare_cons {s : Stmt} (h : s.isComment = false) (ss : Block) :
    bare (s :: ss) = s.bareBy id :: bare ss := if_neg (by simp [h])

private theorem bare_bareBy (s : Stmt) : bare [s.bareBy id] = bare [s] := by
  cases h : s.isComment with
  | true => rw [bare_cons_of_comment (s.isComment_bareBy_id.trans h), bare_cons_of_comment h]
  | false => rw [bare_cons (s.isComment_bareBy_id.trans h), bare_cons h, bareBy_bareBy]

private theorem bare_ifElse (p : Pos) (test : Expr) (body orelse : Block) :
    bare [.ifElse p test body orelse] = [.ifElse .none test.unplaced body.bare orelse.bare] := rfl

private theorem bare_forEach (p : Pos) (target iter : Expr) (body orelse : Block) :
    bare [.forEach p target iter body orelse] =
      [.forEach .none target.unplaced iter.unplaced body.bare orelse.bare] := rfl

/-- Nothing but comments is left out of a bare form. -/
theorem bare_eq_nil_iff {b : Block} : b.bare = [] ↔ b.all isComment = true := by
  induction b with
  | nil => exact iff_of_true rfl rfl
  | cons s ss ih =>
    cases h : s.isComment with
    | true => rw [bare_cons_of_comment h, ih, List.all_cons, h, Bool.true_and]
    | false => simp [bare_cons h, h]

end Block

namespace Block

private theorem bare_bare (b : Block) : b.bare.bare = b.bare :=
  Stmt.bareBlockBy_bareBlockBy fun s _ => s.bareBy_bareBy

private theorem all_isComment_bare (b : Block) :
    b.bare.all Stmt.isComment = b.all Stmt.isComment := by
  rw [Bool.eq_iff_iff, ← bare_eq_nil_iff, bare_bare, bare_eq_nil_iff]

end Block

/-! ## Folding statements -/

namespace Folded

open Block (bare bare_append bare_eq_nil_iff bare_ifElse)

/-- Whether two foldings leave the same, comments aside, and falsify equally many requirements. -/
structure SameBare (x y : Folded) : Prop where
  /-- The bare forms are the same. -/
  bare : bare x.stmts = bare y.stmts
  /-- Equally many requirements are false. -/
  falsified : x.falsified.length = y.falsified.length

private theorem bare_live (x : Folded) : bare x.live.stmts = bare x.stmts := by
  unfold live
  split
  · next h => exact (bare_eq_nil_iff.2 h).symm
  · rfl

private theorem falsified_live (x : Folded) : x.live.falsified = x.falsified := by
  unfold live
  split <;> rfl

private theorem live_isEmpty (x : Folded) : x.live.stmts.isEmpty = (bare x.stmts).isEmpty := by
  rw [Bool.eq_iff_iff, List.isEmpty_iff, List.isEmpty_iff, bare_eq_nil_iff]
  unfold live
  split
  · next h => exact iff_of_true rfl h
  · next h => exact iff_of_false (fun hnil => h (by rw [hnil]; rfl)) h

namespace SameBare

variable {x x' y y' : Folded}

/-- Foldings one after the other leave the same when each of them does. -/
theorem append (h : SameBare x x') (h' : SameBare y y') :
    SameBare (x.append y) (x'.append y') where
  bare := by simp only [Folded.append, bare_append, h.bare, h'.bare]
  falsified := by simp only [Folded.append, List.length_append, h.falsified, h'.falsified]

/-- Blocks that leave the same are emptied alike. -/
theorem live (h : SameBare x y) : SameBare x.live y.live where
  bare := by rw [bare_live, bare_live, h.bare]
  falsified := by rw [falsified_live, falsified_live, h.falsified]

private theorem live_isEmpty_eq (h : SameBare x y) :
    x.live.stmts.isEmpty = y.live.stmts.isEmpty := by
  rw [live_isEmpty, live_isEmpty, h.bare]

/-- An `if` of foldings that leave the same. -/
theorem foldIf (hb : SameBare x x') (ho : SameBare y y') (p : Pos) (test : Expr) :
    SameBare (Stmt.foldIf .none test.unplaced x.live y.live)
      (Stmt.foldIf p test x'.live y'.live) where
  bare := by
    have htest : test.unplaced.negated.unplaced = test.negated.unplaced := by
      rw [← Expr.unplaced_negated, Expr.unplaced_unplaced]
    have hbody := hb.live.bare
    have horelse := ho.live.bare
    simp only [Stmt.foldIf, hb.live_isEmpty_eq, ho.live_isEmpty_eq]
    split
    · split
      · rfl
      · rw [bare_ifElse, bare_ifElse, htest, horelse]
    · rw [bare_ifElse, bare_ifElse, Expr.unplaced_unplaced, hbody, horelse]
  falsified := by
    simp only [Stmt.foldIf, List.length_append, hb.live.falsified, ho.live.falsified]

end SameBare
end Folded

namespace Stmt

open Folded (SameBare)

variable (build : Build)

private theorem constantBinding?_unplaced (targets : List Expr) (value : Expr) :
    constantBinding? (targets.map Expr.unplaced) value.unplaced =
      constantBinding? targets value := by
  unfold constantBinding?
  rw [Expr.bool?_unplaced]
  rcases targets with _ | ⟨target, _ | _⟩
  · rfl
  · cases target <;> cases value.bool? <;> rfl
  · cases value.bool? <;> cases target <;> rfl

private theorem firstArgument?_unplaced (value : Expr) :
    firstArgument? value.unplaced = firstArgument? value := by
  cases value with
  | call p func args => cases args <;> simp [firstArgument?]
  | _ => rfl

private theorem foldNames_bareBy (names : FoldedNames) (s : Stmt) :
    foldNames build names (s.bareBy id) = foldNames build names s := by
  cases s with
  | assign p targets value =>
    have hvalue := value.fold_unplaced build names
    rw [Expr.unplaced] at hvalue
    simp only [bareBy, foldNames, Expr.bareListBy_id, hvalue, constantBinding?_unplaced]
  | _ => rfl

/-- Statements that folding leaves, and their bare forms. -/
theorem sameBare_one (s : Stmt) : SameBare (.one (s.bareBy id)) (.one s) :=
  ⟨Block.bare_bareBy s, rfl⟩

private theorem sameBare_foldRequire (p : Pos) (value folded : Expr) :
    SameBare (foldRequire (.expr .none value.unplaced) .none folded.unplaced)
      (foldRequire (.expr p value) p folded) := by
  unfold foldRequire
  rw [firstArgument?_unplaced]
  split
  · exact ⟨rfl, rfl⟩
  · exact ⟨Block.bare_bareBy (.expr p folded), rfl⟩
  · exact sameBare_one (.expr p folded)

private theorem sameBare_foldBlock_of {b : Block}
    (ih : ∀ s ∈ b, ∀ names, SameBare (fold build names (s.bareBy id)) (fold build names s))
    (names : FoldedNames) :
    SameBare (foldBlock build names (bareBlockBy id b)) (foldBlock build names b) := by
  induction b generalizing names with
  | nil => exact ⟨rfl, rfl⟩
  | cons s ss ihs =>
    have hss := ihs fun s hs => ih s (List.mem_cons_of_mem _ hs)
    rw [bareBlockBy]
    split
    · next hs =>
      cases s with
      | expr p value =>
        have hnames : foldNames build names (.expr p value) = names := rfl
        have hself : fold build names (.expr p value) = .one (.expr p value) := by
          rw [fold, if_pos hs]
        obtain ⟨hbare, hfalsified⟩ := hss names
        rw [foldBlock, hnames, hself]
        exact ⟨hbare.trans (Block.bare_cons_of_comment hs _).symm, hfalsified⟩
      | _ => cases hs
    · rw [foldBlock, foldBlock, foldNames_bareBy]
      exact (ih s List.mem_cons_self names).append (hss _)

/-- Folding leaves the same of a statement and of its bare form, comments aside. -/
theorem sameBare_fold (s : Stmt) (names : FoldedNames) :
    SameBare (fold build names (s.bareBy id)) (fold build names s) := by
  have expr (e : Expr) : e.bareBy id = e.unplaced := rfl
  induction s using partsInduction generalizing names with
  | assign p targets value =>
    have hone := sameBare_one (.assign p targets (value.fold build names))
    simp only [bareBy, Expr.bareListBy_id, expr] at hone
    simp only [bareBy, Expr.bareListBy_id, expr, fold, Expr.fold_unplaced,
      constantBinding?_unplaced]
    split
    · exact ⟨rfl, rfl⟩
    · exact hone
  | ifElse p test body orelse ihb iho =>
    have hbody := sameBare_foldBlock_of build ihb names
    have horelse := sameBare_foldBlock_of build iho names
    simp only [bareBy, expr, fold, Expr.fold_unplaced, Expr.bool?_unplaced]
    split
    · exact hbody.live
    · exact horelse.live
    · exact hbody.foldIf horelse p _
  | forEach p target iter body orelse ihb iho =>
    have hbody := sameBare_foldBlock_of build ihb names
    have horelse : Block.bare (bareBlockBy id orelse) = Block.bare orelse := Block.bare_bare orelse
    simp only [bareBy, expr, fold, Expr.fold_unplaced, hbody.live_isEmpty_eq]
    refine ⟨?_, hbody.live.falsified⟩
    split
    · rfl
    · rw [Block.bare_forEach, Block.bare_forEach, hbody.live.bare, horelse, Expr.unplaced_unplaced,
        Expr.unplaced_unplaced]
  | expr p value =>
    have hcomment := isComment_bareBy_id (.expr p value)
    have hcall : value.unplaced.callName? = value.callName? := by
      cases value <;> simp [Expr.callName?]
    simp only [bareBy, expr] at hcomment
    simp only [bareBy, expr, fold, hcomment, hcall, Expr.fold_unplaced]
    split
    · exact sameBare_one (.expr p value)
    · split
      · exact sameBare_foldRequire p value _
      · exact sameBare_one (.expr p _)
  | update | whileDo | pass | breakOut | nextRound => exact sameBare_one _

end Stmt

/-- Folding leaves the same of a block and of its bare form, comments aside. -/
theorem Block.sameBare_fold (b : Block) (build : Build) :
    Folded.SameBare (b.bare.fold build) (b.fold build) :=
  (Stmt.sameBare_foldBlock_of build (fun s _ => s.sameBare_fold build) .empty).live

/-! ## Rounds over blocks with comments -/

namespace Stmt

mutual

/-- Whether comments do not count for a round over dead code: no block that a round goes into holds
nothing but comments or is the `else` of a loop, and no assignment binds the name that comments
call. -/
def IgnoresComments : Stmt → Prop
  | ifElse _ _ body orelse =>
    (body.all isComment = true → body = []) ∧ BlockIgnoresComments body ∧
      (orelse.all isComment = true → orelse = []) ∧ BlockIgnoresComments orelse
  | forEach _ _ _ body orelse =>
    (body.all isComment = true → body = []) ∧ BlockIgnoresComments body ∧ orelse = []
  | s => commentName ∉ assigned s

/-- Whether comments do not count for a round over the statements of a block. -/
def BlockIgnoresComments : Block → Prop
  | [] => True
  | s :: ss => IgnoresComments s ∧ BlockIgnoresComments ss

end

private theorem blockIgnoresComments_iff {b : Block} :
    BlockIgnoresComments b ↔ ∀ s ∈ b, s.IgnoresComments := by
  induction b with
  | nil => simp [BlockIgnoresComments]
  | cons s ss ih => simp [BlockIgnoresComments, ih]

private theorem not_mem_assignedBlock_of {b : Block}
    (ih : ∀ s ∈ b, s.IgnoresComments → commentName ∉ assigned s)
    (hb : BlockIgnoresComments b) : commentName ∉ assignedBlock b := by
  induction b with
  | nil => exact List.not_mem_nil
  | cons s ss ihs =>
    rw [assignedBlock, List.mem_append, not_or]
    exact ⟨ih s List.mem_cons_self hb.1, ihs (fun s hs => ih s (List.mem_cons_of_mem _ hs)) hb.2⟩

private theorem IgnoresComments.not_mem_assigned {s : Stmt} (h : s.IgnoresComments) :
    commentName ∉ assigned s := by
  induction s using partsInduction with
  | ifElse p test body orelse ihb iho =>
    obtain ⟨-, hbody, -, horelse⟩ := h
    rw [assigned, List.mem_append, not_or]
    exact ⟨not_mem_assignedBlock_of ihb hbody, not_mem_assignedBlock_of iho horelse⟩
  | forEach p target iter body orelse ihb iho =>
    obtain ⟨-, hbody, rfl⟩ := h
    rw [assigned, List.mem_append, not_or]
    exact ⟨not_mem_assignedBlock_of ihb hbody, List.not_mem_nil⟩
  | _ => exact h

/-- What is left of a block that is folded is nothing, or more than comments. -/
theorem live_stmts_eq_nil {x : Folded} (h : x.live.stmts.all isComment = true) :
    x.live.stmts = [] := by
  rcases live_stmts x with hnil | ⟨hsame, hopen⟩
  · exact hnil
  · rw [hsame, hopen] at h
    cases h

private theorem blockIgnoresComments_live {x : Folded} (h : BlockIgnoresComments x.stmts) :
    BlockIgnoresComments x.live.stmts := by
  rcases live_stmts x with hnil | ⟨hsame, -⟩
  · rw [hnil]
    trivial
  · rwa [hsame]

private theorem blockIgnoresComments_append {b c : Block} :
    BlockIgnoresComments (b ++ c) ↔ BlockIgnoresComments b ∧ BlockIgnoresComments c := by
  simp [blockIgnoresComments_iff, or_imp, forall_and]

private theorem blockIgnoresComments_singleton {s : Stmt} :
    BlockIgnoresComments [s] ↔ s.IgnoresComments := by
  simp [BlockIgnoresComments]

section Fold

variable (build : Build)

private theorem blockIgnoresComments_foldIf (p : Pos) (test : Expr) {x y : Folded}
    (hx : BlockIgnoresComments x.stmts) (hy : BlockIgnoresComments y.stmts) :
    BlockIgnoresComments (foldIf p test x.live y.live).stmts := by
  have hbody := blockIgnoresComments_live hx
  have horelse := blockIgnoresComments_live hy
  unfold foldIf
  dsimp only
  split
  · split
    · trivial
    · exact blockIgnoresComments_singleton.2
        ⟨live_stmts_eq_nil, horelse, fun _ => rfl, trivial⟩
  · exact blockIgnoresComments_singleton.2
      ⟨live_stmts_eq_nil, hbody, live_stmts_eq_nil, horelse⟩

private theorem blockIgnoresComments_foldBlock_of {b : Block}
    (ih : ∀ s ∈ b, Block.isElseFree [s] = true → commentName ∉ assigned s → ∀ names,
      BlockIgnoresComments (fold build names s).stmts)
    (hfree : b.isElseFree = true) (hname : commentName ∉ assignedBlock b) (names : FoldedNames) :
    BlockIgnoresComments (foldBlock build names b).stmts := by
  induction b generalizing names with
  | nil => trivial
  | cons s ss ihs =>
    rw [← List.singleton_append, Block.isElseFree_append, Bool.and_eq_true] at hfree
    rw [assignedBlock, List.mem_append, not_or] at hname
    rw [foldBlock, Folded.append, blockIgnoresComments_append]
    refine ⟨ih s List.mem_cons_self hfree.1 hname.1 names, ?_⟩
    exact ihs (fun s hs => ih s (List.mem_cons_of_mem _ hs)) hfree.2 hname.2 _

/-- Where comments stand does not count for dead code in what folding leaves. -/
theorem blockIgnoresComments_fold (s : Stmt) (hfree : Block.isElseFree [s] = true)
    (hname : commentName ∉ assigned s) (names : FoldedNames) :
    BlockIgnoresComments (fold build names s).stmts := by
  induction s using partsInduction generalizing names with
  | assign p targets value =>
    rw [fold]
    split
    · trivial
    · exact blockIgnoresComments_singleton.2 hname
  | ifElse p test body orelse ihb iho =>
    rw [isElseFree_ifElse, Bool.and_eq_true] at hfree
    rw [assigned, List.mem_append, not_or] at hname
    have hbody := blockIgnoresComments_foldBlock_of build ihb hfree.1 hname.1 names
    have horelse := blockIgnoresComments_foldBlock_of build iho hfree.2 hname.2 names
    rw [fold]
    split
    · exact blockIgnoresComments_live hbody
    · exact blockIgnoresComments_live horelse
    · exact blockIgnoresComments_foldIf p _ hbody horelse
  | forEach p target iter body orelse ihb iho =>
    rw [isElseFree_forEach, Bool.and_eq_true, List.isEmpty_iff] at hfree
    rw [assigned, List.mem_append, not_or] at hname
    have hbody := blockIgnoresComments_foldBlock_of build ihb hfree.1 hname.1 names
    rw [fold]
    dsimp only
    split
    · trivial
    · exact blockIgnoresComments_singleton.2
        ⟨live_stmts_eq_nil, blockIgnoresComments_live hbody, hfree.2⟩
  | expr p value =>
    have hexpr (e : Expr) : BlockIgnoresComments [.expr p e] :=
      blockIgnoresComments_singleton.2 List.not_mem_nil
    rw [fold]
    split
    · exact hexpr value
    · split
      · unfold foldRequire
        split
        · trivial
        · exact hexpr _
        · exact hexpr _
      · exact hexpr _
  | update | whileDo | pass | breakOut | nextRound =>
    exact blockIgnoresComments_singleton.2 hname

end Fold

section Prune

variable {unused : List String}

/-- Whether a round leaves of a statement and of its bare form the same, and comments do not count
for what it leaves. -/
structure PrunesBare (unused : List String) (s : Stmt) : Prop where
  /-- The bare form of what is left is what is left of the bare form. -/
  bare : prune unused (s.bareBy id) =
    ⟨(prune unused s).left.map (bareBy id), (prune unused s).changed⟩
  /-- What is left is a comment if the statement is one, and comments do not count for it. -/
  left : ∀ t ∈ (prune unused s).left, t.isComment = s.isComment ∧ t.IgnoresComments

/-- The same of the statements of a block. -/
structure PrunesBlockBare (unused : List String) (b : Block) : Prop where
  /-- The bare form of what is left is what is left of the bare form. -/
  bare : pruneStmts unused b.bare = (Block.bare (pruneStmts unused b).1, (pruneStmts unused b).2)
  /-- Comments do not count for what is left. -/
  left : BlockIgnoresComments (pruneStmts unused b).1

private theorem prune_of_isComment {s : Stmt} (h : s.isComment = true) :
    prune unused s = ⟨some s, false⟩ := by
  cases s with
  | expr p value => rfl
  | _ => cases h

private theorem prunesBlockBare_of {b : Block}
    (ih : ∀ s ∈ b, s.IgnoresComments → PrunesBare unused s) (h : BlockIgnoresComments b) :
    PrunesBlockBare unused b := by
  induction b with
  | nil => exact ⟨rfl, trivial⟩
  | cons s ss ihs =>
    obtain ⟨hbare, hleft⟩ := ih s List.mem_cons_self h.1
    obtain ⟨hbares, hlefts⟩ := ihs (fun s hs => ih s (List.mem_cons_of_mem _ hs)) h.2
    cases hs : s.isComment with
    | true =>
      constructor
      · simp only [Block.bare_cons_of_comment hs, pruneStmts, prune_of_isComment hs, hbares,
          Bool.false_or]
      · simp only [pruneStmts, prune_of_isComment hs]
        exact ⟨h.1, hlefts⟩
    | false =>
      cases hp : (prune unused s).left with
      | none =>
        constructor
        · simp only [Block.bare_cons hs, pruneStmts, hbare, hp, Option.map_none, hbares]
        · simp only [pruneStmts, hp]
          exact hlefts
      | some t =>
        obtain ⟨ht, hignores⟩ := hleft t hp
        constructor
        · simp only [Block.bare_cons hs, pruneStmts, hbare, hp, Option.map_some, hbares,
            Block.bare_cons (ht.trans hs)]
        · simp only [pruneStmts, hp]
          exact ⟨hignores, hlefts⟩

/-- A block of which nothing but comments is left has changed, so settling sees what it sees of the
bare form. -/
theorem PrunesBlockBare.settle {b : Block} (h : PrunesBlockBare unused b)
    (hopen : b.all isComment = true → b = []) :
    Stmt.settle (pruneStmts unused b.bare).1 (pruneStmts unused b.bare).2 =
      ⟨(Stmt.settle (pruneStmts unused b).1 (pruneStmts unused b).2).left.map Block.bare,
        (Stmt.settle (pruneStmts unused b).1 (pruneStmts unused b).2).changed⟩ := by
  have hbare := h.bare
  rw [hbare]
  cases hmore : (pruneStmts unused b).1.all isComment with
  | false =>
    rw [settle_of_open hmore, settle_of_open (by rw [Block.all_isComment_bare, hmore])]
    rfl
  | true =>
    have hnil := Block.bare_eq_nil_iff.2 hmore
    rw [hnil, settle_nil]
    by_cases hc : (pruneStmts unused b).1 = []
    · rw [hc, settle_nil]
      rfl
    · have hchanged : (pruneStmts unused b).2 = true := by
        rw [← Bool.not_eq_false]
        intro hsame
        rw [hnil, hsame] at hbare
        obtain rfl := hopen (Block.bare_eq_nil_iff.1 (eq_nil_of_pruneStmts hbare))
        exact hc rfl
      simp [Stmt.settle, hc, hmore, hchanged]

private theorem PrunesBlockBare.left_settle {b : Block} (h : PrunesBlockBare unused b) :
    ∀ c ∈ (Stmt.settle (pruneStmts unused b).1 (pruneStmts unused b).2).left,
      (c.all isComment = true → c = []) ∧ BlockIgnoresComments c := by
  rcases settle_left (pruneStmts unused b).1 (pruneStmts unused b).2 with hnone | ⟨hsome, hmore⟩
  · simp [hnone]
  · rw [hsome]
    rintro c ⟨⟩
    exact ⟨fun hall => absurd (hall.symm.trans hmore.1) (by simp), h.left⟩

private theorem settleIf_bare (p : Pos) (test : Expr) (x y : Pruned Block) :
    settleIf .none test.unplaced ⟨x.left.map Block.bare, x.changed⟩
        ⟨y.left.map Block.bare, y.changed⟩ =
      ⟨(settleIf p test x y).left.map (bareBy id), (settleIf p test x y).changed⟩ := by
  obtain ⟨xl, xc⟩ := x
  obtain ⟨yl, yc⟩ := y
  have hnegated : test.negated.bareBy id = test.unplaced.negated := Expr.unplaced_negated test
  cases xl with
  | none =>
    cases yl with
    | none => rfl
    | some o =>
      simp only [settleIf, Option.map_none, Option.map_some, bareBy, hnegated]
      rfl
  | some b => cases yl <;> rfl

private theorem bindsUnused_bareBy (unused : List String) (s : Stmt) :
    (s.bareBy id).bindsUnused unused = s.bindsUnused unused := by
  cases s with
  | assign p targets value =>
    rcases targets with _ | ⟨target, _ | _⟩
    · rfl
    · cases target <;> rfl
    · cases target <;> rfl
  | _ => rfl

private theorem left_settleIf (p : Pos) (test : Expr) {x y : Pruned Block}
    (hx : ∀ c ∈ x.left, (c.all isComment = true → c = []) ∧ BlockIgnoresComments c)
    (hy : ∀ c ∈ y.left, (c.all isComment = true → c = []) ∧ BlockIgnoresComments c) :
    ∀ t ∈ (settleIf p test x y).left, t.isComment = false ∧ t.IgnoresComments := by
  obtain ⟨xl, xc⟩ := x
  obtain ⟨yl, yc⟩ := y
  cases xl with
  | none =>
    cases yl with
    | none => simp [settleIf]
    | some o =>
      rintro t ⟨⟩
      exact ⟨rfl, (hy o rfl).1, (hy o rfl).2, fun _ => rfl, trivial⟩
  | some b =>
    rintro t ⟨⟩
    obtain ⟨hb, hbi⟩ := hx b rfl
    cases yl with
    | none => exact ⟨rfl, hb, hbi, fun _ => rfl, trivial⟩
    | some o => exact ⟨rfl, hb, hbi, hy o rfl⟩

/-- A round leaves of the bare form of a statement the bare form of what it leaves. -/
theorem prunesBare (s : Stmt) (h : s.IgnoresComments) : PrunesBare unused s := by
  have expr (e : Expr) : e.bareBy id = e.unplaced := rfl
  induction s using partsInduction with
  | ifElse p test body orelse ihb iho =>
    obtain ⟨hbopen, hbody, hoopen, horelse⟩ := h
    have hb := prunesBlockBare_of ihb hbody
    have ho := prunesBlockBare_of iho horelse
    constructor
    · have hbs := hb.settle hbopen
      have hos := ho.settle hoopen
      rw [Block.bare] at hbs hos
      simp only [bareBy, prune, expr, hbs, hos]
      exact settleIf_bare p test _ _
    · rw [prune]
      exact left_settleIf p test hb.left_settle ho.left_settle
  | forEach p target iter body orelse ihb iho =>
    obtain ⟨hbopen, hbody, rfl⟩ := h
    have hb := prunesBlockBare_of ihb hbody
    constructor
    · have hbs := hb.settle hbopen
      rw [Block.bare] at hbs
      simp only [bareBy, prune, expr, hbs, Option.map_map]
      rfl
    · rw [prune]
      intro t ht
      obtain ⟨c, hc, rfl⟩ := Option.map_eq_some_iff.1 ht
      exact ⟨rfl, (hb.left_settle c hc).1, (hb.left_settle c hc).2, rfl⟩
  | assign p targets value =>
    have hunused := bindsUnused_bareBy unused (.assign p targets value)
    rw [bareBy] at hunused
    constructor
    · simp only [bareBy, prune, hunused]
      split <;> rfl
    · intro t ht
      simp only [prune] at ht
      split at ht
      · cases ht
      · cases ht
        exact ⟨rfl, h⟩
  | pass p => exact ⟨rfl, by simp [prune]⟩
  | update | whileDo | expr | breakOut | nextRound =>
    exact ⟨rfl, by rintro t ⟨⟩; exact ⟨rfl, h⟩⟩

end Prune

/-! ## What is stripped -/

private theorem assignedBlock_bare_of {b : Block}
    (ih : ∀ s ∈ b, assigned (s.bareBy id) = assigned s) :
    assignedBlock (bareBlockBy id b) = assignedBlock b := by
  induction b with
  | nil => rfl
  | cons s ss ihs =>
    have hss := ihs fun s hs => ih s (List.mem_cons_of_mem _ hs)
    rw [bareBlockBy, assignedBlock]
    split
    · next hs =>
      cases s with
      | expr p value => exact hss
      | _ => cases hs
    · rw [assignedBlock, ih s List.mem_cons_self, hss]

private theorem assigned_bareBy (s : Stmt) : assigned (s.bareBy id) = assigned s := by
  induction s using partsInduction with
  | assign p targets value =>
    simp only [bareBy, Expr.bareListBy_id, assigned, Expr.filterMap_name?_unplaced]
  | ifElse p test body orelse ihb iho | whileDo p test body orelse ihb iho =>
    simp only [bareBy, assigned, assignedBlock_bare_of ihb, assignedBlock_bare_of iho]
  | forEach p target iter body orelse ihb iho =>
    simp only [bareBy, assigned, assignedBlock_bare_of ihb, assignedBlock_bare_of iho]
  | _ => rfl

end Stmt

namespace Block

open Stmt

private theorem assignedBlock_bare (b : Block) : assignedBlock b.bare = assignedBlock b :=
  assignedBlock_bare_of fun s _ => s.assigned_bareBy

/-- The same names are unused in the bare form, if none of them is that of comments. -/
theorem unusedNames_bare {b : Block} (h : commentName ∉ assignedBlock b) :
    b.bare.unusedNames = b.unusedNames := by
  rw [unusedNames, unusedNames, assignedBlock_bare]
  refine List.filter_congr fun name hname => ?_
  rw [mentions_bare b (ne_of_mem_of_not_mem hname h)]

private theorem not_mem_assignedBlock {b : Block} (h : BlockIgnoresComments b) :
    commentName ∉ assignedBlock b :=
  not_mem_assignedBlock_of (fun _ _ hs => hs.not_mem_assigned) h

/-- A round leaves of the bare form of a block the bare form of what it leaves. -/
theorem prune_bare {b : Block} (hopen : b.all isComment = true → b = [])
    (h : BlockIgnoresComments b) : b.bare.prune = ⟨b.prune.left.map bare, b.prune.changed⟩ := by
  rw [prune, unusedNames_bare (not_mem_assignedBlock h)]
  exact (prunesBlockBare_of (fun s _ => s.prunesBare) h).settle hopen

/-- Without dead code the bare form of a block is the bare form of what is left of it. -/
theorem withoutDeadCode_bare {b : Block} (hopen : b.all isComment = true → b = [])
    (h : BlockIgnoresComments b) : b.bare.withoutDeadCode = b.withoutDeadCode.map bare := by
  induction b using withoutDeadCode.induct with
  | case1 b changed hprune =>
    have hbare := prune_bare hopen h
    rw [hprune] at hbare
    rw [withoutDeadCode, hbare, withoutDeadCode, hprune]
    rfl
  | case2 b left hprune =>
    have hbare := prune_bare hopen h
    rw [hprune] at hbare
    rw [withoutDeadCode, hbare, withoutDeadCode, hprune]
    rfl
  | case3 b left hprune ih =>
    have hbare := prune_bare hopen h
    rw [hprune] at hbare
    obtain ⟨hleft, hmore⟩ := prune_eq_some hprune
    have hignores : BlockIgnoresComments (pruneStmts b.unusedNames b).1 :=
      (prunesBlockBare_of (fun s _ => s.prunesBare) h).left
    rw [hleft] at hignores
    rw [withoutDeadCode, hbare, withoutDeadCode, hprune]
    exact ih (fun hall => by rw [hmore] at hall; cases hall) hignores

/-- The bare form of a stripped statement is what is left of its folded bare form. -/
theorem bare_strip {b : Block} (hfree : b.isElseFree = true)
    (hname : commentName ∉ assignedBlock b) (build : Build) :
    (b.strip build).block.map bare = (bare (b.bare.fold build).stmts).withoutDeadCode := by
  have hignores := blockIgnoresComments_foldBlock_of build
    (fun s _ => s.blockIgnoresComments_fold build) hfree hname .empty
  rw [(sameBare_fold b build).bare]
  exact (withoutDeadCode_bare live_stmts_eq_nil (blockIgnoresComments_live hignores)).symm

end Block

/-! ## Comments do not count -/

/-- What a diagnostic says, wherever it is: its code, its message and the source text at fault. -/
def Diagnostic.report (d : Diagnostic) : String × String × Option String :=
  (d.id, d.message, d.fragment)

/-- The diagnostics of issues that say the same say the same. -/
theorem Issue.SameReports.diagnostics {v w : Verification} (h : SameReports v.issues w.issues)
    (origin : Origin) (api : String) :
    (v.diagnostics origin api).map Diagnostic.report =
      (w.diagnostics origin api).map Diagnostic.report := by
  have hreport (is : List Issue) : (is.map (toDiagnostic origin api)).map Diagnostic.report =
      (is.map report).map fun r => (r.1.code.id, r.1.message, r.2.map String.ofList) := by
    rw [List.map_map, List.map_map]
    rfl
  rw [Verification.diagnostics, Verification.diagnostics, hreport, hreport, h]

namespace Block

open Stmt

/-- Comments do not count, nor do positions. Statements with one bare form, no `else` of a loop and
no assignment to the name that comments call are accepted together, require as much and have the
same diagnostics, apart from places; they have one parameter tag; and stripped for a build nothing
is left of them, or statements with one bare form, with as many warnings. -/
theorem outcome_of_bare {b b' : Block} (h : b.bare = b'.bare) (hfree : b.isElseFree = true)
    (hfree' : b'.isElseFree = true) (hname : commentName ∉ assignedBlock b) (s : Subject)
    (build : Build) (origin : Origin) :
    ((b.verify s).isOk = (b'.verify s).isOk ∧ (b.verify s).requires = (b'.verify s).requires ∧
      ((b.verify s).diagnostics origin s.api).map Diagnostic.report =
        ((b'.verify s).diagnostics origin s.api).map Diagnostic.report) ∧
    b.parameterTag = b'.parameterTag ∧
    (b.strip build).block.map bare = (b'.strip build).block.map bare ∧
    ((b.strip build).warnings origin).length = ((b'.strip build).warnings origin).length := by
  have hname' : commentName ∉ assignedBlock b' := by
    rwa [← assignedBlock_bare, ← h, assignedBlock_bare]
  obtain ⟨hissues, hrequires⟩ := verify_bare hfree s
  obtain ⟨hissues', hrequires'⟩ := verify_bare hfree' s
  rw [← h] at hissues' hrequires'
  have hsame : Issue.SameReports (b.verify s).issues (b'.verify s).issues :=
    hissues.symm.trans hissues'
  have hlen : (b.verify s).issues.length = (b'.verify s).issues.length := by
    simpa using congrArg List.length hsame
  have hfalsified (c : Block) :
      (c.strip build).falsified.length = (c.bare.fold build).falsified.length :=
    (sameBare_fold c build).falsified.symm
  refine ⟨⟨?_, hrequires.symm.trans hrequires', hsame.diagnostics origin s.api⟩, ?_, ?_, ?_⟩
  · rw [Verification.isOk, Verification.isOk, Bool.eq_iff_iff, List.isEmpty_iff_length_eq_zero,
      List.isEmpty_iff_length_eq_zero, hlen]
  · rw [← parameterTag_bare b, h, parameterTag_bare]
  · rw [bare_strip hfree hname, bare_strip hfree' hname', h]
  · rw [Stripped.warnings, Stripped.warnings, List.length_map, List.length_map, hfalsified,
      hfalsified, h]

/-- A command that is given numbers, or none. -/
private def drawOptional : Subject where
  registry := { entities := [{
    name := "vkCmdDrawOptional", category := .command,
    members := [⟨"count", "uint32_t", 0, none, none⟩,
      ⟨"pCounts", "uint32_t", 1, some "count", none⟩] }] }
  api := "vkCmdDrawOptional"

/-- A build of the first version. -/
private def baseBuild : Build :=
  ⟨⟨["VK_VERSION_1_0"], [], .empty⟩, .ofRegistry drawOptional.registry⟩

/-- The requirement that there are numbers if they are given, with statements before it and in both
branches. -/
private def requireCountAt (p : Pos) (outside inside : Block) : Block :=
  outside ++ [.ifElse p (.compare p (.name p "pCounts") [.notEq] [.name p "NULL"])
    (inside ++ [.expr p (.call p (.name p "require")
      [.compare p (.name p "count") [.gt] [.const p (.int 0)]])]) inside]

/-- A comment. -/
private def remark : Stmt :=
  .expr ⟨2, 1⟩ (.call ⟨2, 1⟩ (.name ⟨2, 1⟩ commentName) [.const ⟨2, 1⟩ (.str "if there are any")])

/-- Comments around a requirement, and an `else` of a comment only, do not count. -/
theorem outcome_of_bare_requireCount :
    requireCountAt ⟨1, 1⟩ [remark] [remark] ≠ requireCountAt .none [] [] ∧
    ((requireCountAt ⟨1, 1⟩ [remark] [remark]).verify drawOptional).isOk = true ∧
    ((requireCountAt ⟨1, 1⟩ [remark] [remark]).strip baseBuild).block.map bare =
      ((requireCountAt .none [] []).strip baseBuild).block.map bare := by
  have hbare : bare (requireCountAt ⟨1, 1⟩ [remark] [remark]) =
      bare (requireCountAt .none [] []) := rfl
  obtain ⟨⟨hok, -, -⟩, -, hstrip, -⟩ := outcome_of_bare hbare rfl rfl (by decide) drawOptional
    baseBuild ⟨"draw.adoc", 1, 0⟩
  refine ⟨by decide, ?_, hstrip⟩
  rw [hok]
  decide +kernel

end Block
end ValidUsage
