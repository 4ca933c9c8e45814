import ValidUsage.Proofs.DecimalText
import ValidUsage.Proofs.MarkupLayout
import ValidUsage.Proofs.Misread
import ValidUsage.Proofs.ScanSound
import ValidUsage.Proofs.SourceRoundTrip
import ValidUsage.Proofs.Spent
import ValidUsage.Vu.Basic

/-!
# Accepted statements are rendered

What a build leaves of an accepted statement is read again from its markup: it has no more
operators, texts, names and comments than the statement has, but for truth values and the names of
extensions, and no block of it is empty. So the check of the rendering never fails, if the texts and
comments of the statement cannot be taken for markup, none of its operators is a left shift, and the
extensions that features stand for have names.
-/

namespace ValidUsage

open Verification

/-! ## What can be taken for markup -/

namespace Markup

private theorem isUndecorated_iff {t : List Char} :
    IsUndecorated t ↔ '\n' ∉ t ∧ ∀ d ∈ searched, ¬d.toList <:+: t :=
  ⟨fun h => ⟨h.line, h.search⟩, fun h => ⟨h.1, h.2⟩⟩

instance (t : List Char) : Decidable (IsUndecorated t) := decidable_of_iff' _ isUndecorated_iff

end Markup

/-- Whether nothing of an expression, its parts aside, can be taken for markup: it is no left shift,
no slice, and no text that has anything which is searched for when markup is taken away. -/
def Expr.isUnmarked : Expr → Bool
  | binary _ _ op _ => op != .lShift
  | const _ (.str text) => decide (Markup.IsUndecorated (Literal.quote text).toList)
  | slice .. => false
  | _ => true

/-- Whether a statement is no comment, or one on a line that cannot be taken for markup. -/
def Stmt.isUnmarked (s : Stmt) : Bool := s.comment?.all fun text =>
  isCommentText text && decide (Markup.IsUndecorated text.toList) &&
    text.toList.getLast? != some '#'

/-- Whether nothing in a block can be taken for markup. -/
def Block.isUnmarked (b : Block) : Bool :=
  b.walk.all Expr.isUnmarked && b.statements.all Stmt.isUnmarked

namespace Expr

/-- Whether an expression, its parts aside, can be written and told from markup. -/
def IsFit : Expr → Prop
  | boolOp _ _ values => 2 ≤ values.length
  | binary _ _ op _ => op ≠ .lShift
  | compare _ _ ops comparators => ops ≠ [] ∧ ops.length = comparators.length
  | member _ _ attr => isIdentifier attr = true
  | name _ id => isIdentifier id = true
  | const _ value => value.isWritable Binary64.isCanonical = true ∧ value.mark.IsClear
  | slice .. => False
  | unary .. | call .. | subscript .. | ifExp .. | tuple .. | list .. => True

variable {e : Expr} {p : Pos}

private theorem isClear_mark {value : Constant} (hf : value.isWritable Binary64.isCanonical = true)
    (hu : (const p value).isUnmarked = true) : value.mark.IsClear := by
  cases value with
  | bool v => cases v <;> exact .inl (.of_toList _ _ rfl (by decide))
  | none => exact .inl (.of_toList _ _ rfl (by decide))
  | int n => exact isNumeral_toString n
  | float x => exact (Binary64.isWritten_of_isCanonical hf).numeral
  | str text =>
    have hu : decide (Markup.IsUndecorated (Literal.quote text).toList) = true := hu
    rw [decide_eq_true_eq] at hu
    exact .inr ⟨⟨Literal.escape text.toList, by simp [Literal.quote]⟩, hu⟩

private theorem IsFit.of_isFormed (hf : e.isFormed Binary64.isCanonical = true)
    (hu : e.isUnmarked = true) : e.IsFit := by
  cases e with
  | boolOp p op values =>
    simp only [isFormed, Bool.and_eq_true, decide_eq_true_eq] at hf
    exact hf.1
  | compare p left ops comparators =>
    simp only [isFormed, Bool.and_eq_true, Bool.not_eq_true', List.isEmpty_eq_false_iff,
      beq_iff_eq] at hf
    exact hf.1.1
  | member p value attr =>
    simp only [isFormed, Bool.and_eq_true] at hf
    exact hf.2
  | name p id => exact hf
  | const p value => exact ⟨hf, isClear_mark hf hu⟩
  | binary p left op right =>
    have hop : op ≠ .lShift := by simpa [isUnmarked] using hu
    exact hop
  | slice => cases hu
  | _ => trivial

private theorem IsFit.isStyled (h : e.IsFit) : e.IsStyled := by
  cases e with
  | name p id => exact .of_isIdentifier h
  | member p value attr => exact .of_isIdentifier h
  | const p value => exact h.2
  | binary p left op right => exact h
  | slice => exact h
  | _ => trivial

/-- What is fit to be rendered is no slice. -/
theorem IsFit.isSlice (h : e.IsFit) : e.isSlice = false := by
  cases e with
  | slice => exact h.elim
  | _ => rfl

/-- An expression that is fit is formed, if no slice is directly within it. -/
theorem IsFit.isFormed (h : e.IsFit) (hparts : ∀ y ∈ e.children, y.isSlice = false) :
    e.isFormed Binary64.isCanonical = true := by
  have all {es : List Expr} (hes : ∀ y ∈ es, y.isSlice = false) :
      es.all (!·.isSlice) = true := List.all_eq_true.2 fun y hy => by rw [hes y hy]; rfl
  cases e with
  | boolOp p op values =>
    have hvalues : values.all (!·.isSlice) = true := all hparts
    rw [Expr.isFormed, hvalues, Bool.and_true]
    exact decide_eq_true h
  | compare p left ops comparators =>
    obtain ⟨hleft, hcomparators⟩ := List.forall_mem_cons.1 hparts
    have hops : ops.isEmpty = false := List.isEmpty_eq_false_iff.2 h.1
    have hlength : (ops.length == comparators.length) = true := beq_iff_eq.2 h.2
    rw [Expr.isFormed, hops, hlength, hleft, all hcomparators]
    rfl
  | call p func args =>
    obtain ⟨hfunc, hargs⟩ := List.forall_mem_cons.1 hparts
    rw [Expr.isFormed, hfunc, all hargs]
    rfl
  | list p elts => exact all hparts
  | member p value attr =>
    rw [Expr.isFormed, hparts value List.mem_cons_self]
    exact h
  | binary p left op right =>
    simp only [children, List.forall_mem_cons] at hparts
    rw [Expr.isFormed, hparts.1, hparts.2.1]
    rfl
  | ifExp p test body orelse =>
    simp only [children, List.forall_mem_cons] at hparts
    rw [Expr.isFormed, hparts.1, hparts.2.1, hparts.2.2.1]
    rfl
  | unary p op value | subscript p value index =>
    rw [Expr.isFormed, hparts value List.mem_cons_self]
    rfl
  | name p id => exact h
  | const p value => exact h.1
  | tuple => rfl
  | slice => exact h.elim

/-- An expression that is fit in all its parts can be written anywhere. -/
theorem isOperand_of_isFit (h : ∀ x ∈ e.walk, x.IsFit) :
    e.isOperand Binary64.isCanonical = true := by
  have hparts {x : Expr} (hx : x ∈ e.walk) : ∀ y ∈ x.children, y.isSlice = false := by
    intro y hy
    refine (h y (walk_subset_of_mem_walk hx ?_)).isSlice
    rw [walk_eq]
    exact List.mem_cons_of_mem _ (mem_walkList.2 ⟨y, hy, self_mem_walk y⟩)
  refine isOperand_iff.2 ⟨(h e (self_mem_walk e)).isSlice, List.all_eq_true.2 fun x hx => ?_,
    List.all_eq_true.2 fun x hx => ?_⟩
  · exact (h x hx).isFormed (hparts hx)
  · cases x with
    | tuple p elts =>
      simp only [isSpread, Bool.not_eq_true', List.any_eq_false]
      exact fun y hy => by simp [hparts hx y hy]
    | _ => rfl

/-- Folding keeps expressions fit, if the extensions that features stand for have names. -/
theorem foldsNodes_isFit {b : Build}
    (h : ∀ feature ext, b.config.legacyAlias? feature = some ext → isIdentifier ext = true) :
    FoldsNodes b IsFit where
  literal p v :=
    have hstyled : (ofBool p v).IsStyled := .of_isUnambiguous rfl
    ⟨rfl, hstyled⟩
  asked _ := (by decide : isIdentifier Predicate.isExtEnabled.name = true)
  extension _ feature ext := h feature ext
  boolOp _ _ _ hlen := hlen
  unary _ _ _ := trivial
  call _ _ _ := trivial
  subscript _ _ _ := trivial
  ifExp _ _ _ _ := trivial
  binary _ _ h := h
  compare _ _ hlen h := ⟨h.1, by rw [hlen, h.2]⟩
  member _ h := h

end Expr

/-! ## Folding makes no comments -/

namespace Verification

variable {s : Subject} {scope : Scope} {build : Build} {names : FoldedNames}

/-- No accepted expression is folded to a call that stands for a comment. -/
theorem callName?_unnegated_fold {e : Expr} (hf : IsFree scope)
    (hc : (checkExpr s scope e).issues = []) :
    (e.fold build names).unnegated.callName? ≠ some commentName := by
  have part {q : Role × Expr} (hq : q ∈ e.parts) :
      (q.2.fold build names).unnegated.callName? ≠ some commentName := by
    have := Expr.sizeOf_lt_of_mem_parts hq
    exact callName?_unnegated_fold hf (acceptsWithin_parts hf hc (List.Subset.refl _) q hq).clean
  have literal {p : Pos} {v : Bool} : (Expr.ofBool p v).unnegated.callName? ≠ some commentName :=
    (by rintro ⟨⟩)
  cases e with
  | boolOp p op values =>
    rw [Expr.fold]
    rcases Expr.foldBoolOp_cases p op (Expr.foldList build names values) with
      ⟨v, hv⟩ | hv | ⟨live, -, -, hv⟩
    · rw [hv]
      exact literal
    · rw [Expr.foldList_eq_map] at hv
      obtain ⟨x, hx, he⟩ := List.mem_map.1 hv
      rw [Expr.foldList_eq_map, ← he]
      exact part (q := (.condition, x)) (List.mem_map_of_mem hx)
    · rw [hv]
      rintro ⟨⟩
  | unary p op operand =>
    have hoperand := part (q := (.operand, operand)) (by simp [Expr.parts])
    rw [Expr.fold]
    split
    · rcases Expr.unnegated_foldNot p (operand.fold build names) with ⟨v, hv⟩ | hv
      · rw [hv]
        exact literal
      · rwa [hv]
    · rename_i hop
      cases op with
      | not => exact absurd rfl hop
      | _ => rintro ⟨⟩
  | ifExp p test body orelse =>
    rw [Expr.fold]
    split
    · exact part (q := (.branch, body)) (by simp [Expr.parts])
    · exact part (q := (.branch, orelse)) (by simp [Expr.parts])
    · rintro ⟨⟩
  | compare p left ops comparators =>
    rw [Expr.fold]
    split
    · exact literal
    rcases Expr.foldCompare_eq p (left.fold build names) ops
      (Expr.foldList build names comparators) with ⟨-, v, hv⟩ | ⟨-, hv⟩
    · rw [hv]
      exact literal
    · rw [hv]
      rintro ⟨⟩
  | call p func args =>
    rw [Expr.fold]
    split
    · unfold Expr.foldAlias
      split
      · rcases Expr.foldName_cases names p Predicate.isExtEnabled.name with ⟨v, hv⟩ | hv
        · rw [hv]
          rintro ⟨⟩
        · rw [hv]
          exact fun h => absurd (Option.some.inj h) (by decide)
      · exact literal
    split
    · exact literal
    -- what is called is a predicate, or a member
    · cases func with
      | name q id =>
        obtain ⟨pred, hid, -, -⟩ := clean_call_name hc
        rw [Expr.fold]
        rcases Expr.foldName_cases names q id with ⟨v, hv⟩ | hv
        · rw [hv]
          rintro ⟨⟩
        · rw [hv]
          intro h
          obtain rfl : id = commentName := Option.some.inj h
          have hnone : Predicate.ofName? commentName = none := by decide
          cases hnone.symm.trans hid
      | member => rintro ⟨⟩
      | _ => cases isPath_of_clean hc
  | name p id =>
    rcases Expr.foldName_cases names p id with ⟨v, hv⟩ | hv
    · rw [Expr.fold, hv]
      exact literal
    · rw [Expr.fold, hv]
      rintro ⟨⟩
  | _ => rintro ⟨⟩
termination_by sizeOf e

/-- No accepted expression becomes a comment. -/
theorem comment?_fold {e : Expr} (hf : IsFree scope) (hc : (checkExpr s scope e).issues = [])
    (p : Pos) :
    (Stmt.expr p (e.fold build names)).comment? = none := by
  cases h : (Stmt.expr p (e.fold build names)).comment? with
  | none => rfl
  | some text =>
    obtain ⟨p₁, p₂, p₃, he⟩ := Stmt.eq_call_of_comment? h
    have hne : (e.fold build names).unnegated.callName? ≠ some commentName :=
      callName?_unnegated_fold hf hc
    exact absurd (by rw [he]; rfl) hne

end Verification

/-! ## Statements -/

namespace Stmt

/-- Whether a statement, its blocks aside, can be written and told from markup. -/
def IsFit : Stmt → Prop
  | assign _ targets value =>
    (∃ q id, targets = [.name q id] ∧ isIdentifier id = true) ∧ ∀ x ∈ value.walk, x.IsFit
  | ifElse _ test _ _ => ∀ x ∈ test.walk, x.IsFit
  | forEach _ target iter _ orelse =>
    (∃ q id, target = .name q id ∧ isIdentifier id = true) ∧ (∀ x ∈ iter.walk, x.IsFit) ∧
      orelse = []
  | expr p value => match (expr p value).comment? with
    | some text => (Mark.comment text).IsClear ∧ isCommentText text = true
    | none => ∀ x ∈ value.walk, x.IsFit
  | pass _ => True
  | update .. | whileDo .. | breakOut _ | nextRound _ => False

variable {s : Stmt}

/-- An accepted statement is fit if it is formed and cannot be taken for markup. -/
theorem IsFit.of_stands {P : Role → Expr → Prop} (ha : s.Stands P) (hu : s.isUnmarked = true)
    (h : ∀ x ∈ s.walk, x.IsFit) : s.IsFit := by
  have fit {e : Expr} (he : e.walk ⊆ s.walk) : ∀ x ∈ e.walk, x.IsFit := fun x hx => h x (he hx)
  cases s with
  | assign p targets value =>
    obtain ⟨⟨q, id, rfl⟩, -⟩ := ha
    refine ⟨⟨q, id, rfl, h (.name q id) ?_⟩, fit (List.subset_append_right _ _)⟩
    simp [walk, Expr.walkList, Expr.walk]
  | ifElse p test body orelse => exact fit (List.subset_append_left _ _)
  | forEach p target iter body orelse =>
    obtain ⟨⟨q, id, rfl⟩, -, rfl⟩ := ha
    refine ⟨⟨q, id, rfl, h (.name q id) (by simp [walk, Expr.walk])⟩, fit ?_, rfl⟩
    exact List.subset_append_of_subset_right _ (List.subset_append_left _ _)
  | expr p value =>
    rw [isUnmarked] at hu
    rw [IsFit]
    cases hc : (expr p value).comment? with
    | none => exact fit (List.Subset.refl _)
    | some text =>
      simp only [hc, Option.all_some, Bool.and_eq_true, decide_eq_true_eq, bne_iff_ne] at hu
      exact ⟨⟨hu.1.2, hu.2⟩, hu.1.1⟩
  | pass => trivial
  | _ => exact ha.elim

private theorem IsFit.isStyled (h : s.IsFit) : s.IsStyled := by
  have styled {e : Expr} (h : ∀ x ∈ e.walk, x.IsFit) : ∀ x ∈ e.walk, x.IsStyled :=
    fun x hx => (h x hx).isStyled
  have target {q : Pos} {id : String} (hid : isIdentifier id = true) :
      ∀ x ∈ (Expr.name q id).walk, x.IsStyled :=
    List.forall_mem_singleton.2 (.of_isIdentifier hid)
  cases s with
  | assign p targets value =>
    obtain ⟨⟨q, id, rfl, hid⟩, hv⟩ := h
    exact ⟨List.forall_mem_singleton.2 (target hid), styled hv⟩
  | ifElse p test body orelse => exact styled h
  | forEach p _ iter body orelse =>
    obtain ⟨⟨q, id, rfl, hid⟩, hi, -⟩ := h
    exact ⟨target hid, styled hi⟩
  | expr p value =>
    rw [IsFit] at h
    rw [IsStyled]
    cases hc : (expr p value).comment? with
    | none =>
      rw [hc] at h
      exact styled h
    | some text =>
      rw [hc] at h
      exact h.1
  | pass => trivial
  | _ => exact h.elim

/-- A statement whose statements are fit can be written, if it is in folded form. -/
theorem isWritable_of_isFit (h : ∀ x ∈ s.nested, x.IsFit) (hn : s.isNormal = true) :
    s.isWritable Binary64.isCanonical = true := by
  have block {b : Block} (ih : ∀ s ∈ b, (∀ x ∈ s.nested, x.IsFit) → s.isNormal = true →
      s.isWritable Binary64.isCanonical = true) (h : ∀ x ∈ nestedBlock b, x.IsFit)
      (hn : isNormalBlock b = true) : areWritable Binary64.isCanonical b = true :=
    areWritable_iff.2 fun s hs => ih s hs (fun x hx => h x (mem_nestedBlock.2 ⟨s, hs, hx⟩))
      (isNormalBlock_iff.1 hn s hs)
  have target {q : Pos} {id : String} (hid : isIdentifier id = true) :
      (Expr.name q id).isOperand Binary64.isCanonical = true :=
    Expr.isOperand_of_isFit (List.forall_mem_singleton.2 hid)
  induction s using partsInduction with
  | assign p targets value =>
    obtain ⟨⟨q, id, rfl, hid⟩, hv⟩ : IsFit (assign p targets value) := h _ List.mem_cons_self
    simp [isWritable, Expr.areWritable_iff, target hid, Expr.isOperand_of_isFit hv]
  | ifElse p test body orelse ihb iho =>
    obtain ⟨ht, hb, ho⟩ := forall_mem_nested_ifElse.1 h
    simp only [isNormal, Bool.and_eq_true] at hn
    obtain ⟨⟨⟨⟨-, hmore⟩, -⟩, hnb⟩, hno⟩ := hn
    have hne : body ≠ [] := by
      rintro rfl
      cases hmore
    simp [isWritable, Expr.isOperand_of_isFit ht, hne, block ihb hb hnb, block iho ho hno]
  | forEach p _ iter body orelse ihb iho =>
    obtain ⟨⟨⟨q, id, rfl, hid⟩, hi, rfl⟩, hb, -⟩ := forall_mem_nested_forEach.1 h
    simp only [isNormal, Bool.and_eq_true] at hn
    obtain ⟨⟨-, hmore⟩, hnb⟩ := hn
    have hne : body ≠ [] := by
      rintro rfl
      cases hmore
    simp [isWritable, target hid, Expr.isLoopTarget, Expr.isOperand_of_isFit hi, hne,
      block ihb hb hnb, areWritable]
  | expr p value =>
    have hself : IsFit (expr p value) := h _ List.mem_cons_self
    rw [IsFit] at hself
    rw [isWritable]
    cases hc : (expr p value).comment? with
    | none =>
      rw [hc] at hself
      simp [Expr.isOperand_of_isFit hself]
    | some text =>
      rw [hc] at hself
      obtain ⟨p₁, p₂, p₃, rfl⟩ := eq_call_of_comment? hc
      have hname : isIdentifier commentName = true := by decide
      simp [Expr.isOperand, Expr.isSlice, Expr.isWritable, Expr.areWritable, Constant.isWritable,
        hname, hself.2]
  | pass => rfl
  | whileDo => exact (h _ List.mem_cons_self).elim
  | _ => exact (h _ List.mem_cons_self).elim

/-- Stripping keeps the statements of an accepted one fit. -/
theorem foldsStmts_isFit {s : Subject} {build : Build} {T : List (Expr × Ty)}
    (h : ∀ feature ext, build.config.legacyAlias? feature = some ext → isIdentifier ext = true) :
    FoldsStmts build (fun x => x.IsFit ∧ x.Stands fun _ e =>
      ∃ t, Visits s T (fun b => isPredicateName b.name = false) (e, t)) IsFit where
  branches _ _ _ ht := ht
  rounds _ _ ht := ht
  negated ht := (Expr.foldsNodes_isFit h).forall_mem_walk_negated ht
  outside _ hs hout := absurd hs.2.isInLanguage (by simp [hout])
  assign _ hs := ⟨hs.1.1, (Expr.foldsNodes_isFit h).forall_mem_walk_fold hs.1.2⟩
  ifElse _ ht := (Expr.foldsNodes_isFit h).forall_mem_walk_fold ht.1
  forEach _ hs := ⟨hs.1.1, (Expr.foldsNodes_isFit h).forall_mem_walk_fold hs.1.2.1, hs.1.2.2⟩
  comment _ hs := hs.1
  expr {p value} names hc _ hs := by
    obtain ⟨hfit, hstands⟩ := hs
    obtain ⟨t, scope, hscope, hclean, -, -⟩ := hstands.resolve_left (by simp [hc])
    have hnone : (Stmt.expr p value).comment? = none := by simpa [isComment] using hc
    rw [IsFit, hnone] at hfit
    rw [IsFit, comment?_fold (s := s) hscope hclean p]
    exact (Expr.foldsNodes_isFit h).forall_mem_walk_fold hfit
  pass _ := trivial

end Stmt

namespace Block

/-- The markup of a block that can be written and told from markup is read as the block. -/
theorem ofText_plain_render (s : Subject) {b : Block}
    (hw : b.isWritable Binary64.isCanonical = true) (hs : ∀ x ∈ b.statements, x.IsStyled) :
    ∃ b', ofText (Markup.plain (Markup.render s b)) = .ok b' ∧ b'.unplaced = b.unplaced := by
  rw [plain_render_of_isStyled s hs]
  exact ofText_layout (fun _ => Binary64.isWritten_of_isCanonical) hw

/-- What a build leaves of an accepted block that is read can be written and told from markup, if
nothing in the block can be taken for it. -/
theorem isWritable_strip {s : Subject} {build : Build} {b c : Block} (hg : b.IsGiven false)
    (hok : (b.verify s).isOk = true) (hu : b.isUnmarked = true)
    (halias : ∀ feature ext,
      build.config.legacyAlias? feature = some ext → isIdentifier ext = true)
    (h : (b.strip build).block = some c) :
    c.isWritable Binary64.isCanonical = true ∧ ∀ x ∈ c.statements, x.IsStyled := by
  obtain ⟨hwalk, hstatements⟩ := Bool.and_eq_true_iff.1 hu
  have hnodes : ∀ e ∈ b.walk, e.IsFit := fun e he => by
    have hformed := Expr.isFormed_of_isSound (List.all_eq_true.1 hg.nodes e he)
    exact .of_isFormed hformed (List.all_eq_true.1 hwalk e he)
  have hbinds : Binds s (b.verify s).types (fun _ => True)
      fun x => isPredicateName x.name = false := ⟨fun _ hx => hx, fun _ _ _ hf _ _ => hf⟩
  have hstands := Stmt.holdsBlock_iff_stands.1 (visits_of_isOk hok hbinds fun _ _ => trivial).2
  have hfit : ∀ x ∈ c.statements, x.IsFit := by
    refine forall_mem_statements_strip
      (Stmt.foldsStmts_isFit (s := s) (T := (b.verify s).types) halias) (fun x hx => ?_) h
    refine ⟨.of_stands (hstands x hx) (List.all_eq_true.1 hstatements x hx) fun e he => ?_,
      hstands x hx⟩
    exact hnodes e (Stmt.walk_subset_of_mem_nestedBlock
      (fun _ _ => Stmt.walk_subset_of_mem_nested) hx he)
  refine ⟨Stmt.areWritable_iff.2 fun x hx => ?_, fun x hx => (hfit x hx).isStyled⟩
  exact Stmt.isWritable_of_isFit (fun y hy => hfit y (Stmt.mem_nestedBlock.2 ⟨x, hx, hy⟩))
    (Stmt.isNormalBlock_iff.1 (normal_of_strip h).1 x hx)

/-- The check of the markup of such a block does not fail. -/
theorem render_output {s : Subject} {b : Block} (hw : b.isWritable Binary64.isCanonical = true)
    (hs : ∀ x ∈ b.statements, x.IsStyled) : b.render s .output = .ok (Markup.render s b) := by
  obtain ⟨b', hb', he⟩ := ofText_plain_render s hw hs
  have hfault : b.fault? (Markup.render s b) .output = none :=
    (fault?_eq_none_iff rfl).2 ⟨b', hb', isSame_of_unplaced he⟩
  rw [render, rendered, checked, hfault]

end Block

namespace VuError

/-- Whether an error is that of a rendering. -/
def isInternal : VuError → Bool
  | internal _ => true
  | _ => false

private theorem isInternal_ofMacro (o : Origin) (e : MacroError) :
    (ofMacro o e).isInternal = false := by
  cases e <;> rfl

end VuError

namespace Vu

variable {v w : Vu} {api : String} {macros : Table String} {r : Registry} {build : Build}

/-- Once its macros are replaced, a statement is one that reading gives. -/
theorem isGiven_of_applyMacros (h : v.applyMacros macros = .ok w) : w.expanded.IsGiven false := by
  obtain ⟨x, b, -, hb, rfl⟩ := applyMacros_eq_ok h
  exact isGiven_of_parse (fun h => absurd h Bool.false_ne_true) hb

private theorem isInternal_of_applyMacros {e : VuError} (h : v.applyMacros macros = .error e) :
    e.isInternal = false := by
  unfold applyMacros at h
  split at h
  · cases h
    exact VuError.isInternal_ofMacro _ _
  split at h
  · cases h
    exact VuError.isInternal_ofMacro _ _
  · exact absurd h nofun

/-- A statement is rejected as one that is not accepted, or for a macro. -/
theorem isInternal_of_accept {e : VuError} (h : v.accept api macros r = .error e) :
    e.isInternal = false := by
  unfold accept resolveApi verify at h
  cases hapi : Expansion.resolveApi? macros api with
  | none =>
    simp only [hapi, bind, Except.bind, Except.error.injEq] at h
    exact h ▸ VuError.isInternal_ofMacro _ _
  | some name =>
    simp only [hapi, bind, Except.bind] at h
    split at h
    · rename_i hverify
      split at hverify
      · exact absurd hverify nofun
      · cases hverify
        cases h
        rfl
    · exact absurd h nofun

private theorem isOk_of_accept {checked : CheckedVu} (h : v.accept api macros r = .ok checked) :
    (v.expanded.verify ⟨r, checked.api⟩).isOk = true := by
  unfold accept resolveApi verify at h
  cases hapi : Expansion.resolveApi? macros api with
  | none => simp [hapi, bind, Except.bind] at h
  | some name =>
    simp only [hapi, bind, Except.bind] at h
    split at h
    · exact absurd h nofun
    · rename_i hverify
      cases h
      split at hverify
      · rename_i hok
        exact hok
      · exact absurd hverify nofun

/-- The build of a statement never fails for its rendering if nothing in the statement, its macros
replaced, can be taken for markup, and the extensions that features stand for have names: the markup
is read as what the build leaves of the statement, comments included. -/
theorem build_rereads
    (hv : ∀ w, v.applyMacros macros = .ok w → w.expanded.isUnmarked = true)
    (halias : ∀ feature ext,
      build.config.legacyAlias? feature = some ext → isIdentifier ext = true) :
    (∀ e, v.build api macros r build ≠ .error (.internal e)) ∧
    ∀ output text ws, v.build api macros r build = .ok (.built output text ws) →
      ∃ w c c', v.applyMacros macros = .ok w ∧ (w.expanded.strip build).block = some c ∧
        Block.ofText (Markup.plain output) = .ok c' ∧ c'.unplaced = c.unplaced := by
  cases hw : v.applyMacros macros with
  | error e =>
    have hbuild : v.build api macros r build = .error e := by rw [Vu.build, hw]; rfl
    rw [hbuild]
    refine ⟨fun e' h => ?_, nofun⟩
    cases h
    exact absurd (isInternal_of_applyMacros hw) nofun
  | ok w =>
    cases ha : w.accept api macros r with
    | error e =>
      have hbuild : v.build api macros r build = .error e := by
        simp [Vu.build, hw, ha, bind, Except.bind]
      rw [hbuild]
      refine ⟨fun e' h => ?_, nofun⟩
      cases h
      exact absurd (isInternal_of_accept ha) nofun
    | ok checked =>
      cases hc : (w.expanded.strip build).block with
      | none =>
        have hbuild : ∃ ws, v.build api macros r build = .ok (.eliminated ws) := by
          simp [Vu.build, hw, ha, hc, bind, Except.bind, pure, Except.pure]
        obtain ⟨ws, hbuild⟩ := hbuild
        rw [hbuild]
        exact ⟨nofun, nofun⟩
      | some c =>
        obtain ⟨hwritable, hstyled⟩ := Block.isWritable_strip (isGiven_of_applyMacros hw)
          (isOk_of_accept ha) (hv w hw) halias hc
        have hbuild : ∃ text ws, v.build api macros r build =
            .ok (.built (Markup.render ⟨r, checked.api⟩ c) text ws) := by
          simp [Vu.build, hw, ha, hc, Block.render_output hwritable hstyled, bind, Except.bind,
            pure, Except.pure, Except.mapError]
        obtain ⟨text, ws, hbuild⟩ := hbuild
        rw [hbuild]
        refine ⟨nofun, fun output text ws h => ?_⟩
        cases h
        obtain ⟨c', hc', he⟩ := Block.ofText_plain_render ⟨r, checked.api⟩ hwritable hstyled
        exact ⟨w, c, c', rfl, hc, hc', he⟩

/-- A command that is given regions. -/
def regionRegistry : Registry where
  entities := [⟨"vkCmdCopyRegions", .command, [⟨"regionCount", "uint32_t", 0, none, none⟩,
      ⟨"pRegions", "VkRegion", 1, some "regionCount", none⟩], none, none, []⟩,
    ⟨"VkRegion", .struct, [⟨"size", "uint32_t", 0, none, none⟩], none, none, []⟩]

/-- A build with the first version of the API. -/
def regionBuild : Build :=
  ⟨⟨["VK_VERSION_1_0"], [], legacyFeatures⟩, .ofRegistry regionRegistry⟩

/-- What the build makes of lines about the command. -/
def buildRegions (lines : List (List Char)) : Except VuError BuildOutcome :=
  (ofLines lines "regions" 1).bind fun v =>
    v.build "vkCmdCopyRegions" .empty regionRegistry regionBuild

/-- Whether a statement is in a build. -/
def isBuilt : BuildOutcome → Bool
  | .built .. => true
  | .eliminated _ => false

/-- A requirement of each region, with a comment. -/
def eachRegion : List (List Char) :=
  ["# each region".toList, "for r in pRegions:".toList,
    "  require(r.size >= 4 or regionCount == 1)".toList]

/-- What is written for the requirement of each region reads back as what the build leaves of it. -/
theorem build_rereads_eachRegion : ∃ v w output text ws c c',
    ofLines eachRegion "regions" 1 = .ok v ∧ v.applyMacros .empty = .ok w ∧
    w.expanded.isUnmarked = true ∧ buildRegions eachRegion = .ok (.built output text ws) ∧
    (w.expanded.strip regionBuild).block = some c ∧
    Block.ofText (Markup.plain output) = .ok c' ∧ c'.unplaced = c.unplaced := by
  -- one evaluation: both parts read the same lines
  have hrun : (((ofLines eachRegion "regions" 1).toOption.any fun v =>
      (v.applyMacros .empty).toOption.any fun w => w.expanded.isUnmarked) &&
      (buildRegions eachRegion).toOption.any isBuilt) = true := by
    decide +kernel
  obtain ⟨hlines, hbuilt⟩ := Bool.and_eq_true_iff.1 hrun
  have halias : ∀ feature ext,
      regionBuild.config.legacyAlias? feature = some ext → isIdentifier ext = true := by
    intro feature ext h
    obtain ⟨entry, hentry, rfl⟩ := Option.map_eq_some_iff.1 h
    have hall : legacyFeatures.entries.all (isIdentifier ·.2) = true := by decide +kernel
    exact List.all_eq_true.1 hall entry (List.mem_of_find?_eq_some hentry)
  cases hv : ofLines eachRegion "regions" 1 with
  | error e =>
    rw [hv] at hlines
    cases hlines
  | ok v =>
    simp only [hv, Except.toOption, Option.any_some] at hlines
    cases hw : v.applyMacros .empty with
    | error e =>
      rw [hw] at hlines
      cases hlines
    | ok w =>
      simp only [hw, Option.any_some] at hlines
      cases hb : buildRegions eachRegion with
      | error e =>
        rw [hb] at hbuilt
        cases hbuilt
      | ok outcome =>
        cases outcome with
        | eliminated ws =>
          rw [hb] at hbuilt
          cases hbuilt
        | built output text ws =>
          have hunmarked : ∀ w, v.applyMacros .empty = .ok w → w.expanded.isUnmarked = true := by
            intro w' hw'
            obtain rfl : w = w' := Except.ok.inj (hw.symm.trans hw')
            exact hlines
          have hbuild := hb
          rw [buildRegions, hv] at hbuild
          obtain ⟨w', c, c', hw', hc, hread, he⟩ :=
            (build_rereads hunmarked halias).2 output text ws hbuild
          obtain rfl : w = w' := Except.ok.inj (hw.symm.trans hw')
          exact ⟨v, w, output, text, ws, c, c', rfl, hw, hlines, rfl, hc, hread, he⟩

/-- The operator of a left shift is taken for the start of a reference, which then ends with that of
the next predicate: the markup of an accepted statement is not read. -/
theorem isInternal_build_shift :
    (match buildRegions ["require(regionCount << 2 == 4)".toList,
        "require(regionCount >= 1)".toList] with
      | .error e => e.isInternal
      | .ok _ => false) = true := by
  decide +kernel

end Vu
end ValidUsage
