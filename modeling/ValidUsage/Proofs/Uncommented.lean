import ValidUsage.Proofs.DeadCodeRounds
import ValidUsage.Proofs.OperandOrder
import ValidUsage.Proofs.Unplaced
import ValidUsage.Vu.Tag

/-!
# Comments are not checked

What a statement is found to be does not depend on its comments and on where its parts stood: it is
checked with the same outcome without them, and its parameter is the same. Only an `else` of a loop
must be left out, which is refused even if it holds nothing but comments.
-/

namespace ValidUsage

/-! ## The bare form in two steps -/

namespace Stmt

mutual

/-- A statement without the comments of its blocks. -/
def uncommented : Stmt → Stmt
  | ifElse p test body orelse => ifElse p test (uncommentedBlock body) (uncommentedBlock orelse)
  | forEach p target iter body orelse =>
    forEach p target iter (uncommentedBlock body) (uncommentedBlock orelse)
  | whileDo p test body orelse => whileDo p test (uncommentedBlock body) (uncommentedBlock orelse)
  | s => s

/-- The statements of a block that are no comments, without the comments of their blocks. -/
def uncommentedBlock : Block → Block
  | [] => []
  | s :: ss => if s.isComment then uncommentedBlock ss else uncommented s :: uncommentedBlock ss

end

private theorem unplacedBlock_uncommented_of {b : Block}
    (ih : ∀ s ∈ b, s.uncommented.unplaced = s.bareBy id) :
    unplacedBlock (uncommentedBlock b) = bareBlockBy id b := by
  induction b with
  | nil => rfl
  | cons s ss ihs =>
    have hss := ihs fun s hs => ih s (List.mem_cons_of_mem _ hs)
    rw [uncommentedBlock, bareBlockBy]
    split
    · exact hss
    · rw [unplacedBlock, ih s List.mem_cons_self, hss]

private theorem unplaced_uncommented (s : Stmt) : s.uncommented.unplaced = s.bareBy id := by
  induction s using partsInduction with
  | assign p targets value =>
    rw [uncommented, unplaced, bareBy, Expr.bareListBy_id, Expr.unplaced]
    all_goals simp
  | ifElse p test body orelse ihb iho =>
    rw [uncommented, unplaced, bareBy, unplacedBlock_uncommented_of ihb,
      unplacedBlock_uncommented_of iho, Expr.unplaced]
  | forEach p target iter body orelse ihb iho =>
    rw [uncommented, unplaced, bareBy, unplacedBlock_uncommented_of ihb,
      unplacedBlock_uncommented_of iho, Expr.unplaced, Expr.unplaced]
  | whileDo p test body orelse ihb iho =>
    rw [uncommented, unplaced, bareBy, unplacedBlock_uncommented_of ihb,
      unplacedBlock_uncommented_of iho, Expr.unplaced]
  | _ => rfl

end Stmt

namespace Block

/-- A block without its comments. -/
def uncommented (b : Block) : Block := Stmt.uncommentedBlock b

/-- The bare form of a block has neither comments nor positions. -/
theorem bare_eq (b : Block) : b.bare = b.uncommented.unplaced :=
  (Stmt.unplacedBlock_uncommented_of fun s _ => s.unplaced_uncommented).symm

end Block

/-! ## What is found without comments -/

namespace Text

/-- The first line of a text that goes on behind a line end does not depend on how it goes on. -/
theorem lines_go_headD {r : List Char} (hr : ∀ c ∈ r.head?, c = '\n') (u acc : List Char)
    (hacc : (u.reverse ++ acc).head? ≠ some '\r') :
    (lines.go (u ++ r) acc).headD [] = (lines.go u acc).headD [] := by
  induction u generalizing acc with
  | nil =>
    cases r with
    | nil => rfl
    | cons c cs =>
      obtain rfl := hr c rfl
      have hreturn : lines.dropReturn acc = acc.reverse := by
        unfold lines.dropReturn
        split
        · exact absurd rfl hacc
        · rfl
      cases acc <;> simp [lines.go, hreturn]
  | cons c cs ih =>
    rw [List.cons_append, lines.go, lines.go]
    split
    · rfl
    · exact ih _ (by simpa using hacc)

end Text

namespace Checked

variable {α β : Type}

@[simp] theorem pure_bind (a : α) (f : α → Checked β) : ((pure a : Checked α) >>= f) = f a := by
  show Checked.bind _ _ = _
  simp [Checked.bind, pure]

end Checked

namespace Stmt

/-- Whether marks are those of lines of their own. -/
def OpensLine (ms : List Mark) : Prop := ∀ m ∈ ms.head?, ∃ n, m = .lineBreak n

private theorem opensLine_layoutBlock (b : Block) (n : Nat) {ms : List Mark} (h : OpensLine ms) :
    OpensLine (layoutBlock b n ++ ms) := by
  cases b with
  | nil => exact h
  | cons s ss => simp [OpensLine, layoutBlock]

private theorem opensLine_layoutElse (chained : Bool) (b : Block) (n : Nat) :
    OpensLine (layoutElse chained b n) := by
  unfold layoutElse
  split
  · simp [OpensLine]
  · split <;> simp [OpensLine]
  · simp [OpensLine]

private theorem OpensLine.head_source {ms : List Mark} (h : OpensLine ms) :
    ∀ c ∈ (Style.source.text ms).head?, c = '\n' := by
  cases ms with
  | nil => simp [Style.text]
  | cons m ms =>
    obtain ⟨n, rfl⟩ := h m rfl
    intro c hc
    exact (Option.some.inj hc).symm

end Stmt

namespace Issue

/-- A `while` is shown by its head. -/
theorem ofStmt_whileDo (m : Mistake) (p : Pos) (test : Expr) (body orelse body' orelse' : Block) :
    ofStmt m (.whileDo p test body orelse) = ofStmt m (.whileDo p test body' orelse') := by
  have hline (b o : Block) : (Text.lines (Stmt.whileDo p test b o).source).headD [] =
      (Text.lines (Style.source.text
        (.keyword "while" :: .blank :: (test.layout 0 ++ [.colon])))).headD [] := by
    have hsource : (Stmt.whileDo p test b o).source = Style.source.text
        (.keyword "while" :: .blank :: (test.layout 0 ++ [.colon])) ++
          Style.source.text (Stmt.layoutBlock b blockIndent ++ Stmt.layoutElse false o 0) := by
      rw [← Style.text_append]
      simp [Stmt.source, Stmt.layout]
    rw [hsource]
    have hblocks := Stmt.opensLine_layoutBlock b blockIndent (Stmt.opensLine_layoutElse false o 0)
    refine Text.lines_go_headD hblocks.head_source _ [] ?_
    simp [Style.text, Style.source, Mark.source, Mark.colon]
  simp only [ofStmt, Stmt.pos, hline]

end Issue

namespace Verification

open Block (isElseFree isElseFree_append)
open Stmt (isElseFree_ifElse isElseFree_forEach)

variable (subject : Subject)

private theorem checkStmts_uncommented_of {b : Block}
    (ih : ∀ s ∈ b, isElseFree [s] = true → ∀ scope,
    checkStmt subject scope s.uncommented = checkStmt subject scope s)
    (h : b.isElseFree = true) (scope : Scope) :
    checkStmts subject scope b.uncommented = checkStmts subject scope b := by
  rw [Block.uncommented]
  induction b generalizing scope with
  | nil => rfl
  | cons s ss ihs =>
    rw [← List.singleton_append, isElseFree_append, Bool.and_eq_true] at h
    have hss := ihs (fun s hs => ih s (List.mem_cons_of_mem _ hs)) h.2
    rw [Stmt.uncommentedBlock]
    split
    · next hs =>
      cases s with
      | expr p value =>
        rw [hss, checkStmts, checkStmt, if_pos hs, Checked.pure_bind]
      | _ => cases hs
    · simp only [checkStmts, ih s List.mem_cons_self h.1, hss]

private theorem checkStmt_uncommented {s : Stmt} (h : isElseFree [s] = true) (scope : Scope) :
    checkStmt subject scope s.uncommented = checkStmt subject scope s := by
  induction s using Stmt.partsInduction generalizing scope with
  | ifElse p test body orelse ihb iho =>
    rw [isElseFree_ifElse, Bool.and_eq_true] at h
    have hbody := checkStmts_uncommented_of subject ihb h.1
    have horelse := checkStmts_uncommented_of subject iho h.2
    rw [Block.uncommented] at hbody horelse
    simp only [Stmt.uncommented, checkStmt, hbody, horelse]
  | forEach p target iter body orelse ihb iho =>
    rw [isElseFree_forEach, Bool.and_eq_true, List.isEmpty_iff] at h
    obtain ⟨hfree, rfl⟩ := h
    have hbody := checkStmts_uncommented_of subject ihb hfree
    rw [Block.uncommented] at hbody
    simp only [Stmt.uncommented, Stmt.uncommentedBlock, checkStmt, hbody]
    rfl
  | whileDo p test body orelse ihb iho =>
    rw [Stmt.uncommented, checkStmt, checkStmt, Issue.ofStmt_whileDo]
  | _ => rfl

/-- A statement without an `else` of a loop is checked as without its comments. -/
theorem verify_uncommented {b : Block} (h : b.isElseFree = true) :
    b.uncommented.verify subject = b.verify subject := by
  have hfound := checkStmts_uncommented_of subject (fun s _ => checkStmt_uncommented subject) h []
  rw [Block.verify, Block.verify, hfound]

end Verification
/-! ## What is found without positions -/

namespace Expr

variable {turns : CmpOp → Bool} {es es' : List Expr}

private theorem forall₂_turned_unplaced (ih : ∀ e ∈ es, e.unplaced.Turned turns e) :
    List.Forall₂ (Turned turns) (es.map unplaced) es :=
  List.forall₂_map_left_iff.2 (List.forall₂_same.2 ih)

private theorem rel_turned_unplaced {o : Option Expr} (ih : ∀ e ∈ o, e.unplaced.Turned turns e) :
    Option.Rel (Turned turns) (o.map unplaced) o := by
  cases o with
  | none => exact .none
  | some e => exact .some (ih e rfl)

/-- Nothing is turned when positions are left out. -/
theorem turned_unplaced (turns : CmpOp → Bool) (e : Expr) : e.unplaced.Turned turns e := by
  induction e using partsInduction with
  | boolOp p op values ih =>
    rw [unplaced_boolOp]
    exact .boolOp (forall₂_turned_unplaced ih)
  | binary p left op right ihl ihr => exact .binary ihl ihr
  | unary p op operand ih => exact .unary ih
  | compare p left ops comparators ihl ih =>
    rw [unplaced_compare]
    exact .compare ihl (forall₂_turned_unplaced ih)
  | call p func args ihf ih =>
    rw [unplaced_call]
    exact .call ihf (forall₂_turned_unplaced ih)
  | member p value attr ih => exact .member ih
  | subscript p value index ihv ihi => exact .subscript ihv ihi
  | ifExp p test body orelse iht ihb iho => exact .ifExp iht ihb iho
  | name p id => exact .name
  | const p value => exact .const
  | tuple p elts ih =>
    rw [unplaced_tuple]
    exact .tuple (forall₂_turned_unplaced ih)
  | list p elts ih =>
    rw [unplaced_list]
    exact .list (forall₂_turned_unplaced ih)
  | slice p lower upper step ihl ihu ihs =>
    rw [unplaced_slice]
    exact .slice (rel_turned_unplaced ihl) (rel_turned_unplaced ihu) (rel_turned_unplaced ihs)

private theorem map_unplaced_of_turned
    (ih : ∀ e ∈ es, ∀ e', e.Turned turns e' → e.unplaced = e'.unplaced)
    (h : List.Forall₂ (Turned turns) es es') : es.map unplaced = es'.map unplaced := by
  induction h with
  | nil => rfl
  | cons h _ ihs =>
    rw [List.map_cons, List.map_cons, ih _ List.mem_cons_self _ h,
      ihs fun e he => ih e (List.mem_cons_of_mem _ he)]

private theorem map_unplaced_of_rel {o o' : Option Expr}
    (ih : ∀ e ∈ o, ∀ e', e.Turned turns e' → e.unplaced = e'.unplaced)
    (h : Option.Rel (Turned turns) o o') : o.map unplaced = o'.map unplaced := by
  cases h with
  | none => rfl
  | some h => exact congrArg some (ih _ rfl _ h)

/-- Where no comparison is turned, expressions are the same without positions. -/
theorem unplaced_of_turned {e e' : Expr} (h : e.Turned (fun _ => false) e') :
    e.unplaced = e'.unplaced := by
  induction e using partsInduction generalizing e' with
  | boolOp p op values ih =>
    cases h with
    | boolOp h => rw [unplaced_boolOp, unplaced_boolOp, map_unplaced_of_turned ih h]
  | binary p left op right ihl ihr =>
    cases h with
    | binary hl hr => rw [unplaced_binary, unplaced_binary, ihl hl, ihr hr]
  | unary p op operand ih =>
    cases h with
    | unary h => rw [unplaced_unary, unplaced_unary, ih h]
  | compare p left ops comparators ihl ih =>
    cases h with
    | compare hl h => rw [unplaced_compare, unplaced_compare, ihl hl, map_unplaced_of_turned ih h]
    | turned hop => cases hop
  | call p func args ihf ih =>
    cases h with
    | call hf h => rw [unplaced_call, unplaced_call, ihf hf, map_unplaced_of_turned ih h]
  | member p value attr ih =>
    cases h with
    | member h => rw [unplaced_member, unplaced_member, ih h]
  | subscript p value index ihv ihi =>
    cases h with
    | subscript hv hi => rw [unplaced_subscript, unplaced_subscript, ihv hv, ihi hi]
  | ifExp p test body orelse iht ihb iho =>
    cases h with
    | ifExp ht hb ho => rw [unplaced_ifExp, unplaced_ifExp, iht ht, ihb hb, iho ho]
  | name p id | const p value =>
    cases h
    rfl
  | tuple p elts ih =>
    cases h with
    | tuple h => rw [unplaced_tuple, unplaced_tuple, map_unplaced_of_turned ih h]
  | list p elts ih =>
    cases h with
    | list h => rw [unplaced_list, unplaced_list, map_unplaced_of_turned ih h]
  | slice p lower upper step ihl ihu ihs =>
    cases h with
    | slice hl hu hs =>
      rw [unplaced_slice, unplaced_slice, map_unplaced_of_rel ihl hl, map_unplaced_of_rel ihu hu,
        map_unplaced_of_rel ihs hs]

end Expr

namespace Stmt

variable {turns : CmpOp → Bool} {b b' : Block}

private theorem forall₂_turned_unplaced (ih : ∀ s ∈ b, s.unplaced.Turned turns s) :
    List.Forall₂ (Turned turns) (unplacedBlock b) b := by
  induction b with
  | nil => exact .nil
  | cons s ss ihs =>
    exact .cons (ih s List.mem_cons_self) (ihs fun s hs => ih s (List.mem_cons_of_mem _ hs))

/-- A statement without its positions is the same but for them. -/
theorem turned_unplaced (turns : CmpOp → Bool) (s : Stmt) : s.unplaced.Turned turns s := by
  induction s using partsInduction with
  | assign p targets value =>
    exact .assign (Expr.forall₂_turned_unplaced fun e _ => e.turned_unplaced turns)
      (value.turned_unplaced turns)
  | update p target op value =>
    exact .update (target.turned_unplaced turns) (value.turned_unplaced turns)
  | ifElse p test body orelse ihb iho =>
    exact .ifElse (test.turned_unplaced turns) (forall₂_turned_unplaced ihb)
      (forall₂_turned_unplaced iho)
  | forEach p target iter body orelse ihb iho =>
    exact .forEach (target.turned_unplaced turns) (iter.turned_unplaced turns)
      (forall₂_turned_unplaced ihb) (forall₂_turned_unplaced iho)
  | whileDo p test body orelse ihb iho =>
    exact .whileDo (test.turned_unplaced turns) (forall₂_turned_unplaced ihb)
      (forall₂_turned_unplaced iho)
  | expr p value => exact .expr (value.turned_unplaced turns)
  | pass | breakOut | nextRound => constructor

private theorem unplacedBlock_of_turned
    (ih : ∀ s ∈ b, ∀ s', s.Turned turns s' → s.unplaced = s'.unplaced)
    (h : List.Forall₂ (Turned turns) b b') : unplacedBlock b = unplacedBlock b' := by
  induction h with
  | nil => rfl
  | cons h _ ihs =>
    rw [unplacedBlock, unplacedBlock, ih _ List.mem_cons_self _ h,
      ihs fun s hs => ih s (List.mem_cons_of_mem _ hs)]

/-- Where no comparison is turned, statements are the same without positions. -/
theorem unplaced_of_turned {s s' : Stmt} (h : s.Turned (fun _ => false) s') :
    s.unplaced = s'.unplaced := by
  induction s using partsInduction generalizing s' with
  | assign p targets value =>
    cases h with
    | assign ht hv =>
      rw [unplaced, unplaced, Expr.unplaced_of_turned hv,
        Expr.map_unplaced_of_turned (fun _ _ _ h => Expr.unplaced_of_turned h) ht]
  | update p target op value =>
    cases h with
    | update ht hv =>
      rw [unplaced, unplaced, Expr.unplaced_of_turned ht, Expr.unplaced_of_turned hv]
  | ifElse p test body orelse ihb iho =>
    cases h with
    | ifElse ht hb ho =>
      rw [unplaced, unplaced, Expr.unplaced_of_turned ht, unplacedBlock_of_turned ihb hb,
        unplacedBlock_of_turned iho ho]
  | forEach p target iter body orelse ihb iho =>
    cases h with
    | forEach ht hi hb ho =>
      rw [unplaced, unplaced, Expr.unplaced_of_turned ht, Expr.unplaced_of_turned hi,
        unplacedBlock_of_turned ihb hb, unplacedBlock_of_turned iho ho]
  | whileDo p test body orelse ihb iho =>
    cases h with
    | whileDo ht hb ho =>
      rw [unplaced, unplaced, Expr.unplaced_of_turned ht, unplacedBlock_of_turned ihb hb,
        unplacedBlock_of_turned iho ho]
  | expr p value =>
    cases h with
    | expr h => rw [unplaced, unplaced, Expr.unplaced_of_turned h]
  | pass | breakOut | nextRound =>
    cases h
    rfl

end Stmt

/-- What an issue says, wherever it is: what is wrong, and the source text at fault. -/
def Issue.report (i : Issue) : Mistake × Option (List Char) := (i.mistake, i.fragment)

/-- Whether two lists of issues say the same in the same order. -/
def Issue.SameReports (a b : List Issue) : Prop := a.map Issue.report = b.map Issue.report

/-- Positions are not reported. -/
theorem Issue.SameReports.compares : Issue.Compares (fun _ => false) Issue.SameReports where
  refl _ := rfl
  trans h h' := h.trans h'
  append h h' := by
    rw [SameReports, List.map_append, List.map_append, h, h']
  expr m details h := by
    have hlayout := congrArg Expr.layout (Expr.unplaced_of_turned h)
    rw [Expr.layout_unplaced, Expr.layout_unplaced] at hlayout
    simp only [SameReports, ofExpr, report, Expr.source, hlayout, List.map_cons, List.map_nil]
  pair m t u ha hb := by
    have hla := congrArg Expr.layout (Expr.unplaced_of_turned ha)
    have hlb := congrArg Expr.layout (Expr.unplaced_of_turned hb)
    rw [Expr.layout_unplaced, Expr.layout_unplaced] at hla hlb
    simp only [SameReports, ofPair, report, Expr.source, hla, hlb, List.map_cons, List.map_nil]
  stmt m h := by
    have hlayout := congrArg Stmt.layout (Stmt.unplaced_of_turned h)
    rw [Stmt.layout_unplaced, Stmt.layout_unplaced] at hlayout
    simp only [SameReports, ofStmt, report, Stmt.source, hlayout, List.map_cons, List.map_nil]
  isEquality h := by cases h
  perm h := by cases h

namespace Block

/-- A statement without an `else` of a loop is checked as its bare form. -/
theorem verify_bare {b : Block} (h : b.isElseFree = true) (s : Subject) :
    Issue.SameReports (b.bare.verify s).issues (b.verify s).issues ∧
      (b.bare.verify s).requires = (b.verify s).requires := by
  have hturned : b.uncommented.unplaced.Turned (fun _ => false) b.uncommented :=
    Stmt.forall₂_turned_unplaced fun x _ => x.turned_unplaced _
  rw [bare_eq, ← Verification.verify_uncommented s h]
  exact Verification.alike_verify Issue.SameReports.compares hturned s

end Block
/-! ## What is read off the parts -/

namespace Expr

private theorem walkList_unplaced {es : List Expr}
    (ih : ∀ e ∈ es, e.unplaced.walk = e.walk.map unplaced) :
    walkList (es.map unplaced) = (walkList es).map unplaced := by
  induction es with
  | nil => rfl
  | cons e es ihs =>
    rw [List.map_cons, walkList, walkList, List.map_append, ih e List.mem_cons_self,
      ihs fun e he => ih e (List.mem_cons_of_mem _ he)]

private theorem walkOption_unplaced {o : Option Expr}
    (ih : ∀ e ∈ o, e.unplaced.walk = e.walk.map unplaced) :
    walkOption (o.map unplaced) = (walkOption o).map unplaced := by
  cases o with
  | none => rfl
  | some e => exact ih e rfl

private theorem walk_unplaced (e : Expr) : e.unplaced.walk = e.walk.map unplaced := by
  induction e using partsInduction with
  | boolOp p op values ih => simp [walk, walkList_unplaced ih]
  | binary p left op right ihl ihr => simp [walk, ihl, ihr]
  | unary p op operand ih => simp [walk, ih]
  | compare p left ops comparators ihl ih => simp [walk, ihl, walkList_unplaced ih]
  | call p func args ihf ih => simp [walk, ihf, walkList_unplaced ih]
  | member p value attr ih => simp [walk, ih]
  | subscript p value index ihv ihi => simp [walk, ihv, ihi]
  | ifExp p test body orelse iht ihb iho => simp [walk, iht, ihb, iho]
  | name p id => simp [walk]
  | const p value => simp [walk]
  | tuple p elts ih => simp [walk, walkList_unplaced ih]
  | list p elts ih => simp [walk, walkList_unplaced ih]
  | slice p lower upper step ihl ihu ihs =>
    simp [walk, walkOption_unplaced ihl, walkOption_unplaced ihu, walkOption_unplaced ihs]

end Expr

/-- Whether what is read off an expression, if anything, does not depend on where it stands, and
nothing is read off a comment. -/
structure Expr.ReadsBare {α : Type} (f : Expr → Option α) : Prop where
  /-- Positions do not matter. -/
  unplaced : ∀ e, f e.unplaced = f e
  /-- Nothing is read off a comment. -/
  comment : ∀ p value, (Stmt.expr p value).isComment = true → value.walk.filterMap f = []

namespace Stmt

variable {α : Type} {f : Expr → Option α} (hf : Expr.ReadsBare f)

include hf

private theorem filterMap_walk_unplaced (e : Expr) :
    e.unplaced.walk.filterMap f = e.walk.filterMap f := by
  rw [Expr.walk_unplaced, List.filterMap_map]
  exact List.filterMap_congr fun x _ => hf.unplaced x

private theorem filterMap_walkList_unplaced (es : List Expr) :
    (Expr.walkList (es.map Expr.unplaced)).filterMap f = (Expr.walkList es).filterMap f := by
  rw [Expr.walkList_unplaced fun e _ => e.walk_unplaced, List.filterMap_map]
  exact List.filterMap_congr fun x _ => hf.unplaced x

private theorem filterMap_walkBlock_bare {b : Block}
    (ih : ∀ s ∈ b, (s.bareBy id).walk.filterMap f = s.walk.filterMap f) :
    (walkBlock (bareBlockBy id b)).filterMap f = (walkBlock b).filterMap f := by
  induction b with
  | nil => rfl
  | cons s ss ihs =>
    have hss := ihs fun s hs => ih s (List.mem_cons_of_mem _ hs)
    rw [bareBlockBy, walkBlock, List.filterMap_append, ← hss]
    split
    · next hs =>
      cases s with
      | expr p value => rw [walk, hf.comment p value hs, List.nil_append]
      | _ => cases hs
    · rw [walkBlock, List.filterMap_append, ih s List.mem_cons_self]

private theorem filterMap_walk_bare (s : Stmt) :
    (s.bareBy id).walk.filterMap f = s.walk.filterMap f := by
  have expr (e : Expr) := filterMap_walk_unplaced hf e
  simp only [Expr.unplaced] at expr
  induction s using partsInduction with
  | assign p targets value =>
    simp only [bareBy, walk, List.filterMap_append, Expr.bareListBy_id,
      filterMap_walkList_unplaced hf, expr]
  | update p target op value => simp only [bareBy, walk, List.filterMap_append, expr]
  | ifElse p test body orelse ihb iho | whileDo p test body orelse ihb iho =>
    simp only [bareBy, walk, List.filterMap_append, expr, filterMap_walkBlock_bare hf ihb,
      filterMap_walkBlock_bare hf iho]
  | forEach p target iter body orelse ihb iho =>
    simp only [bareBy, walk, List.filterMap_append, expr, filterMap_walkBlock_bare hf ihb,
      filterMap_walkBlock_bare hf iho]
  | expr p value => exact expr value
  | pass | breakOut | nextRound => rfl

end Stmt

/-- What is read off the expressions of a block is read off those of its bare form. -/
theorem Block.filterMap_walk_bare {α : Type} {f : Expr → Option α} (hf : Expr.ReadsBare f)
    (b : Block) : b.bare.walk.filterMap f = b.walk.filterMap f :=
  Stmt.filterMap_walkBlock_bare hf fun s _ => s.filterMap_walk_bare hf

namespace Expr

@[simp] theorem name?_unplaced (e : Expr) : e.unplaced.name? = e.name? := by
  cases e <;> rfl

/-- The names among expressions do not depend on positions. -/
theorem filterMap_name?_unplaced (es : List Expr) :
    (es.map unplaced).filterMap name? = es.filterMap name? := by
  rw [List.filterMap_map]
  exact List.filterMap_congr fun x _ => x.name?_unplaced

end Expr

namespace Tag

private theorem readsBare_macroName? : Expr.ReadsBare macroName? where
  unplaced e := by
    cases e with
    | call p func args =>
      cases func with
      | name q id => cases args <;> simp [macroName?, Expr.name?_unplaced]
      | _ => rfl
    | _ => rfl
  comment p value h := by
    obtain ⟨text, ht⟩ := Option.isSome_iff_exists.1 h
    obtain ⟨p₁, p₂, p₃, rfl⟩ := Stmt.eq_call_of_comment? ht
    rfl

end Tag

/-- The names in an expression but the one that comments call. -/
def Expr.properName? (e : Expr) : Option String := e.name?.filter (· != commentName)

private theorem Expr.readsBare_properName? : Expr.ReadsBare Expr.properName? where
  unplaced e := by rw [properName?, properName?, name?_unplaced]
  comment p value h := by
    obtain ⟨text, ht⟩ := Option.isSome_iff_exists.1 h
    obtain ⟨p₁, p₂, p₃, rfl⟩ := Stmt.eq_call_of_comment? ht
    rfl

/-- Every name but that of comments occurs as often in the bare form. -/
theorem Block.mentions_bare (b : Block) {name : String} (h : name ≠ commentName) :
    b.bare.mentions name = b.mentions name := by
  have hcount (c : Block) : c.mentions name = (c.walk.filterMap Expr.properName?).count name := by
    have hproper : c.walk.filterMap Expr.properName? = c.names.filter (· != commentName) :=
      List.filter_filterMap.symm
    rw [mentions_eq_count, hproper, List.count_filter (by simpa using h)]
  rw [hcount, hcount, filterMap_walk_bare Expr.readsBare_properName?]

/-! ## The parameter tag -/

namespace Tag

variable {bound : List String}

private theorem inList?_unplaced {es : List Expr}
    (ih : ∀ e ∈ es, inExpr? bound e.unplaced = inExpr? bound e) :
    inList? bound (es.map Expr.unplaced) = inList? bound es := by
  induction es with
  | nil => rfl
  | cons e es ihs =>
    rw [List.map_cons, inList?, inList?, ih e List.mem_cons_self,
      ihs fun e he => ih e (List.mem_cons_of_mem _ he)]

private theorem inExpr?_unplaced (bound : List String) (e : Expr) :
    inExpr? bound e.unplaced = inExpr? bound e := by
  induction e using Expr.receiverInduction with
  | boolOp p op values ih => rw [Expr.unplaced_boolOp, inExpr?, inExpr?, inList?_unplaced ih]
  | binary p left op right ihl ihr => rw [Expr.unplaced_binary, inExpr?, inExpr?, ihl, ihr]
  | unary p op operand ih => rw [Expr.unplaced_unary, inExpr?, inExpr?, ih]
  | compare p left ops comparators ihl ih =>
    rw [Expr.unplaced_compare, inExpr?, inExpr?, ihl, inList?_unplaced ih]
  | call p func args ihf ihm ih =>
    rw [Expr.unplaced_call]
    cases func with
    | name q id =>
      cases args with
      | nil => rfl
      | cons arg rest =>
        rw [List.map_cons, Expr.unplaced_name, inExpr?, inExpr?, ih arg List.mem_cons_self]
    | member q receiver attr =>
      rw [Expr.unplaced_member, inExpr?, inExpr?, ihm _ _ _ rfl]
    | _ => simp [inExpr?]
  | member p value attr ih => rw [Expr.unplaced_member, inExpr?, inExpr?, ih]
  | subscript p value index ihv ihi =>
    rw [Expr.unplaced_subscript, inExpr?, inExpr?, ihv, ihi]
  | ifExp p test body orelse iht ihb iho =>
    rw [Expr.unplaced_ifExp, inExpr?, inExpr?, iht, ihb, iho]
  | name p id | const p value | slice p lower upper step => rfl
  | tuple p elts ih => rw [Expr.unplaced_tuple, inExpr?, inExpr?, inList?_unplaced ih]
  | list p elts ih => rw [Expr.unplaced_list, inExpr?, inExpr?, inList?_unplaced ih]

private theorem inBody_bare {b : Block}
    (ih : ∀ s ∈ b, ∀ bound, inStmt bound (s.bareBy id) = inStmt bound s) (bound : List String)
    (found : Option String) :
    inBody bound found (Stmt.bareBlockBy id b) = inBody bound found b := by
  induction b generalizing bound found with
  | nil => rfl
  | cons s ss ihs =>
    have hss := ihs fun s hs => ih s (List.mem_cons_of_mem _ hs)
    cases found with
    | some name =>
      -- what was found stays found, whatever follows
      have hfound (c : Block) : inBody bound (some name) c = ⟨bound, some name⟩ := by
        cases c <;> rfl
      rw [hfound, hfound]
    | none =>
      rw [Stmt.bareBlockBy]
      split
      · next hs =>
        cases s with
        | expr p value => simp only [inBody, inStmt, if_pos hs, hss]
        | _ => cases hs
      · simp only [inBody, ih s List.mem_cons_self, hss]

private theorem inStmt_bare (bound : List String) (s : Stmt) :
    inStmt bound (s.bareBy id) = inStmt bound s := by
  have expr (bound : List String) (e : Expr) := inExpr?_unplaced bound e
  simp only [Expr.unplaced] at expr
  induction s using Stmt.partsInduction generalizing bound with
  | assign p targets value =>
    simp only [Stmt.bareBy, inStmt, Expr.bareListBy_id, Expr.filterMap_name?_unplaced, expr]
  | update p target op value => simp only [Stmt.bareBy, inStmt, expr]
  | ifElse p test body orelse ihb iho | whileDo p test body orelse ihb iho =>
    simp only [Stmt.bareBy, inStmt, expr, inBody_bare fun s hs bound => ihb s hs bound]
  | forEach p target iter body orelse ihb iho =>
    have htarget := target.name?_unplaced
    rw [Expr.unplaced] at htarget
    simp only [Stmt.bareBy, inStmt, expr, htarget, inBody_bare fun s hs bound => ihb s hs bound]
  | expr p value =>
    have hcomment := (Stmt.expr p value).isComment_unplaced
    simp only [Stmt.unplaced, Expr.unplaced] at hcomment
    simp only [Stmt.bareBy, inStmt, expr, hcomment]
  | pass | breakOut | nextRound => rfl

end Tag

/-- The parameter tag of a statement is that of its bare form. -/
theorem Block.parameterTag_bare (b : Block) : b.bare.parameterTag = b.parameterTag := by
  have hmacro : Tag.firstMacro? b.bare = Tag.firstMacro? b := by
    rw [Tag.firstMacro?, Tag.firstMacro?, ← List.head?_filterMap, ← List.head?_filterMap,
      filterMap_walk_bare Tag.readsBare_macroName?]
  have hbody := Tag.inBody_bare (fun s _ bound => Tag.inStmt_bare bound s) (b := b) [] none
  rw [parameterTag, parameterTag, hmacro, bare, hbody]

end ValidUsage
