import ValidUsage.Proofs.FalseRequirements
import ValidUsage.Proofs.PruneMeaning
import ValidUsage.Proofs.Scope
import ValidUsage.Proofs.WellScoped

/-!
# What a build leaves of an accepted statement asserts something

When nothing is left that asserts something, the bindings that are left serve nothing. The last one
of them is the one to look at: only comments stand behind it, and it is visible nowhere before, so
its name is mentioned once and the binding is taken away as well. This goes on until nothing is
left.

Names are counted in the whole statement, not where they are visible. So two bindings of one name
keep each other; this happens when branches that use the same name have lost their requirements.
Nothing else does it, if the names that a statement binds are not those of a comment, of a text, or
of an extension that folding puts in.
-/

namespace ValidUsage

/-! ## Names where they are visible -/

namespace Expr

/-- Whether a name is visible, if the expression is one of a statement's own names. -/
def IsSeen (own : String → Prop) (visible : List String) (x : Expr) : Prop :=
  ∀ id, x.name? = some id → own id → id ∈ visible

/-- Whether the own names of a statement that an expression has are visible. -/
def Confined (own : String → Prop) (visible : List String) (e : Expr) : Prop :=
  ∀ x ∈ e.walk, x.IsSeen own visible

end Expr

namespace Stmt

mutual

/-- Whether a statement is in the language, binds names of its own, has them where they are visible,
and has expressions of a kind as statements, comments aside. -/
def Confined (own : String → Prop) (R : Expr → Prop) (visible : List String) : Stmt → Prop
  | assign _ targets value =>
    (∃ p id, targets = [.name p id] ∧ own id) ∧ value.Confined own visible
  | ifElse _ test body orelse => test.Confined own visible ∧ ConfinedBlock own R visible body ∧
    ConfinedBlock own R visible orelse
  | forEach _ target iter body orelse => ∃ p id, target = .name p id ∧ own id ∧
    iter.Confined own visible ∧ ConfinedBlock own R (id :: visible) body ∧ orelse = []
  | expr p value => (expr p value).isComment = true ∨ value.Confined own visible ∧ R value
  | pass _ => True
  | _ => False

/-- Whether the statements of a block are so. -/
def ConfinedBlock (own : String → Prop) (R : Expr → Prop) (visible : List String) : Block → Prop
  | [] => True
  | s :: ss => Confined own R visible s ∧ ConfinedBlock own R (introduces s ++ visible) ss

end

/-- The names that are visible behind a block because of it. -/
def introducedBy (b : Block) : List String := b.flatMap introduces

end Stmt

variable {own : String → Prop} {R : Expr → Prop} {visible visible' : List String}

/-- An expression stays confined when more names are visible. -/
theorem Expr.Confined.mono {e : Expr} (h : e.Confined own visible) (hsub : visible ⊆ visible') :
    e.Confined own visible' :=
  fun x hx id hid hown => hsub (h x hx id hid hown)

namespace Stmt

mutual

/-- More names may be visible. -/
theorem Confined.mono : ∀ {s : Stmt} {visible visible' : List String},
    s.Confined own R visible → visible ⊆ visible' → s.Confined own R visible'
  | assign .., _, _, h, hsub => ⟨h.1, h.2.mono hsub⟩
  | ifElse .., _, _, h, hsub => ⟨h.1.mono hsub, h.2.1.mono hsub, h.2.2.mono hsub⟩
  | forEach .., _, _, h, hsub => by
    obtain ⟨p, id, htarget, hown, hiter, hbody, horelse⟩ := h
    exact ⟨p, id, htarget, hown, hiter.mono hsub, hbody.mono (List.cons_subset_cons id hsub),
      horelse⟩
  | expr .., _, _, h, hsub => h.imp_right fun h => ⟨h.1.mono hsub, h.2⟩
  | pass _, _, _, _, _ => trivial
  | update .., _, _, h, _ | whileDo .., _, _, h, _ | breakOut _, _, _, h, _
  | nextRound _, _, _, h, _ => h.elim

/-- More names may be visible in a block. -/
theorem ConfinedBlock.mono : ∀ {b : Block} {visible visible' : List String},
    ConfinedBlock own R visible b → visible ⊆ visible' → ConfinedBlock own R visible' b
  | [], _, _, _, _ => trivial
  | _ :: _, _, _, h, hsub =>
    ⟨h.1.mono hsub, h.2.mono (List.append_subset.2 ⟨List.subset_append_left _ _,
      List.subset_append_of_subset_right _ hsub⟩)⟩

end

/-- A block behind another one has the names of that one. -/
theorem ConfinedBlock.append {b c : Block} (hb : ConfinedBlock own R visible b)
    (hc : ConfinedBlock own R (introducedBy b ++ visible) c) :
    ConfinedBlock own R visible (b ++ c) := by
  induction b generalizing visible with
  | nil => exact hc
  | cons s ss ih =>
    refine ⟨hb.1, ih hb.2 (hc.mono fun id hid => ?_)⟩
    simp only [introducedBy, List.flatMap_cons, List.mem_append] at hid ⊢
    rcases hid with (hs | hss) | hv
    · exact .inr (.inl hs)
    · exact .inl hss
    · exact .inr (.inr hv)

end Stmt

/-! ## Folding keeps names where they are visible -/

/-- Whether folding puts in no name that is a statement's own, and keeps a kind of expressions. -/
structure Build.Spares (build : Build) (own : String → Prop) (R : Expr → Prop) : Prop where
  /-- The name that extensions are asked for with is none. -/
  asked : ¬own Predicate.isExtEnabled.name
  /-- No extension that stands for a feature is one. -/
  extension : ∀ feature ext, build.config.legacyAlias? feature = some ext → ¬own ext
  /-- Folding keeps the kind, if it replaces own names only. -/
  kind : ∀ e (names : FoldedNames), (∀ id, (names.get? id).isSome = true → own id) → R e →
    R (e.fold build names)

/-- Whether every name that was visible is so still, or is replaced by its value. -/
structure FoldedNames.Covers (names : FoldedNames) (own : String → Prop)
    (visible visible' : List String) : Prop where
  /-- Own names are replaced only. -/
  own : ∀ id, (names.get? id).isSome = true → own id
  /-- Every name is visible or replaced. -/
  visible : ∀ id ∈ visible, id ∈ visible' ∨ (names.get? id).isSome = true

namespace FoldedNames.Covers

variable {names : FoldedNames}

/-- Nothing is replaced by no folded names. -/
theorem nothing : Covers .empty own [] [] := ⟨nofun, nofun⟩

/-- A name that is bound before and after folding. -/
theorem bind (h : names.Covers own visible visible') (ids : List String) :
    names.Covers own (ids ++ visible) (ids ++ visible') where
  own := h.own
  visible id hid := by
    rcases List.mem_append.1 hid with hid | hid
    · exact .inl (List.mem_append_left _ hid)
    · exact (h.visible id hid).imp_left (List.mem_append_right _)

/-- A name that was bound and is replaced. -/
theorem insert (h : names.Covers own visible visible') {id : String} (hid : own id) (v : Bool) :
    Covers (names.insert id v) own (id :: visible) visible' where
  own x hx := by
    rw [Table.get?_insert] at hx
    split at hx
    · next heq => exact heq ▸ hid
    · exact h.own x hx
  visible x hx := by
    rw [Table.get?_insert]
    split
    · exact .inr rfl
    · next hne => exact h.visible x ((List.mem_cons.1 hx).resolve_left hne)

/-- More names are visible after folding. -/
theorem more (h : names.Covers own visible visible') (ids : List String) :
    names.Covers own visible (ids ++ visible') :=
  ⟨h.own, fun id hid => (h.visible id hid).imp_left (List.mem_append_right ids)⟩

end FoldedNames.Covers

/-- Whether none of the expressions that folding leaves alone has a statement's own name in it. -/
def Foreign (own : String → Prop) (es : List Expr) : Prop :=
  ∀ x ∈ es, x.isLeftAlone = true → ∀ y ∈ x.walk, ∀ id, y.name? = some id → ¬own id

private theorem foreign_append {es es' : List Expr} :
    Foreign own (es ++ es') ↔ Foreign own es ∧ Foreign own es' :=
  List.forall_mem_append

namespace Expr

variable {build : Build} {names : FoldedNames} {e : Expr}

private theorem foldsNodes_isSeen (hk : build.Spares own R) :
    FoldsNodes build (IsSeen own visible) where
  literal := nofun
  asked _ _ hid hown := absurd (Option.some.inj hid ▸ hown) hk.asked
  extension _ feature ext hext _ hid hown :=
    absurd (Option.some.inj hid ▸ hown) (hk.extension feature ext hext)
  boolOp := nofun
  unary := nofun
  call := nofun
  subscript := nofun
  ifExp := nofun
  binary := nofun
  compare := nofun
  member := nofun

/-- Folding replaces the names that are not visible any more. -/
theorem Confined.fold (hk : build.Spares own R) (hc : names.Covers own visible visible')
    (h : e.Confined own visible) (hforeign : Foreign own e.walk) :
    (e.fold build names).Confined own visible' := by
  refine (foldsNodes_isSeen hk).forall_mem_walk_fold_away (fun x hx => ?_) ?_
  · cases x with
    | name p id =>
      by_cases hown : own id
      · rcases hc.visible id (h _ hx id rfl hown) with hseen | hfolded
        · refine .inl fun id' hid _ => ?_
          obtain rfl := Option.some.inj hid
          exact hseen
        · exact .inr ⟨p, id, rfl, hfolded⟩
      · exact .inl fun id' hid hown' => absurd (Option.some.inj hid ▸ hown') hown
    | _ => exact .inl nofun
  · intro x hx hleft y hy id hid hown
    exact absurd hown (hforeign x hx hleft y hy id hid)

/-- The negation of a condition has the names of the condition. -/
theorem Confined.negated (h : e.Confined own visible) : e.negated.Confined own visible := by
  unfold Expr.negated
  split
  · exact fun x hx => h x (List.mem_cons_of_mem _ hx)
  · exact List.forall_mem_cons.2 ⟨nofun, h⟩

end Expr

namespace Stmt

variable {build : Build} {names : FoldedNames}

/-- A block stays confined when it is emptied for having only comments. -/
theorem ConfinedBlock.live {x : Folded} (h : ConfinedBlock own R visible x.stmts) :
    ConfinedBlock own R visible x.live.stmts := by
  rcases live_stmts x with hnil | ⟨hsame, -⟩
  · rw [hnil]
    trivial
  · rwa [hsame]

/-- A folded `if` of confined parts is confined. -/
theorem ConfinedBlock.foldIf {p : Pos} {test : Expr} {x y : Folded}
    (htest : test.Confined own visible) (hx : ConfinedBlock own R visible x.stmts)
    (hy : ConfinedBlock own R visible y.stmts) :
    ConfinedBlock own R visible (foldIf p test x y).stmts := by
  unfold Stmt.foldIf
  simp only
  split
  · split
    · trivial
    · exact ⟨⟨htest.negated, hy, trivial⟩, trivial⟩
  · exact ⟨⟨htest, hx, hy⟩, trivial⟩

/-- The names that are visible behind a statement are covered behind what folding makes of it. -/
theorem covers_behind {s : Stmt} (hs : s.Confined own R visible)
    (hc : names.Covers own visible visible') :
    (foldNames build names s).Covers own (introduces s ++ visible)
      (introducedBy (fold build names s).stmts ++ visible') := by
  cases s with
  | assign p targets value =>
    obtain ⟨⟨q, id, rfl, hown⟩, -⟩ := hs
    rw [foldNames, fold]
    cases hv : (value.fold build names).bool? with
    | some v =>
      simp only [constantBinding?, hv]
      exact hc.insert hown v
    | none =>
      simp only [constantBinding?, hv]
      exact hc.bind [id]
  | _ => exact hc.more _

mutual

/-- Folding keeps a statement's own names where they are visible. -/
theorem confined_fold (hk : build.Spares own R) : ∀ {s : Stmt} {names : FoldedNames}
    {visible visible' : List String}, s.Confined own R visible → Foreign own s.walk →
      names.Covers own visible visible' → ConfinedBlock own R visible' (fold build names s).stmts
  | assign p targets value, names, visible, visible', h, hforeign, hc => by
    rw [walk, foreign_append] at hforeign
    rw [fold]
    split
    · trivial
    · exact ⟨⟨h.1, h.2.fold hk hc hforeign.2⟩, trivial⟩
  | ifElse p test body orelse, names, visible, visible', h, hforeign, hc => by
    rw [walk, foreign_append, foreign_append] at hforeign
    have hbody := (confined_foldBlock hk h.2.1 hforeign.2.1 hc).live
    have horelse := (confined_foldBlock hk h.2.2 hforeign.2.2 hc).live
    rw [fold]
    split
    · exact hbody
    · exact horelse
    · exact .foldIf (h.1.fold hk hc hforeign.1) hbody horelse
  | forEach p target iter body orelse, names, visible, visible', h, hforeign, hc => by
    rw [walk, foreign_append, foreign_append, foreign_append] at hforeign
    obtain ⟨q, id, rfl, hown, hiter, hbody, rfl⟩ := h
    have hinner := (confined_foldBlock hk hbody hforeign.2.2.1 (hc.bind [id])).live
    rw [fold]
    simp only
    split
    · trivial
    · exact ⟨⟨q, id, rfl, hown, hiter.fold hk hc hforeign.2.1, hinner, rfl⟩, trivial⟩
  | expr p value, names, visible, visible', h, hforeign, hc => by
    rw [fold]
    split
    · next hcomment => exact ⟨.inl hcomment, trivial⟩
    · next hcomment =>
      obtain ⟨hvalue, hkind⟩ := h.resolve_left hcomment
      have hfolded : ConfinedBlock own R visible' [.expr p (value.fold build names)] :=
        ⟨.inr ⟨hvalue.fold hk hc hforeign, hk.kind value names hc.own hkind⟩, trivial⟩
      split
      · unfold foldRequire
        split
        · trivial
        · exact hfolded
        · exact hfolded
      · exact hfolded
  | pass _, _, _, _, _, _, _ => ⟨trivial, trivial⟩
  | update .., _, _, _, h, _, _ | whileDo .., _, _, _, h, _, _ | breakOut _, _, _, _, h, _, _
  | nextRound _, _, _, _, h, _, _ => h.elim

/-- Folding keeps the own names in a block where they are visible. -/
theorem confined_foldBlock (hk : build.Spares own R) : ∀ {b : Block} {names : FoldedNames}
    {visible visible' : List String}, ConfinedBlock own R visible b → Foreign own (walkBlock b) →
      names.Covers own visible visible' →
        ConfinedBlock own R visible' (foldBlock build names b).stmts
  | [], _, _, _, _, _, _ => trivial
  | s :: ss, names, visible, visible', h, hforeign, hc => by
    rw [walkBlock, foreign_append] at hforeign
    rw [foldBlock]
    exact (confined_fold hk h.1 hforeign.1 hc).append
      (confined_foldBlock hk h.2 hforeign.2 (covers_behind h.1 hc))

end

end Stmt

/-! ## Taking dead code away keeps names where they are visible -/

/-- A name that is not read need not be visible. -/
theorem Expr.Confined.avoid {e : Expr} {unused : List String} (h : e.Confined own visible)
    (ha : Expr.Avoid unused e.walk)
    (hv : ∀ id ∈ visible, id ∈ visible' ∨ id ∈ unused) : e.Confined own visible' :=
  fun x hx id hid hown => (hv id (h x hx id hid hown)).resolve_right fun hu => ha x hx id hu hid

namespace Stmt

variable {unused : List String}

/-- What is left of a confined block is confined. -/
theorem ConfinedBlock.settle {b : Block} {changed : Bool} (h : ConfinedBlock own R visible b) :
    ConfinedBlock own R visible ((settle b changed).left.getD []) := by
  rcases settle_left b changed with hnone | ⟨hsome, -, -⟩
  · rw [hnone]
    trivial
  · rwa [hsome]

/-- What is left of an `if` of confined parts is confined. -/
theorem ConfinedBlock.settleIf {p : Pos} {test : Expr} {x y : Pruned Block}
    (htest : test.Confined own visible) (hx : ConfinedBlock own R visible (x.left.getD []))
    (hy : ConfinedBlock own R visible (y.left.getD [])) :
    ConfinedBlock own R visible (settleIf p test x y).left.toList := by
  obtain ⟨xl, xc⟩ := x
  obtain ⟨yl, yc⟩ := y
  cases xl with
  | none =>
    cases yl with
    | none => trivial
    | some o => exact ⟨⟨htest.negated, hy, trivial⟩, trivial⟩
  | some b => exact ⟨⟨htest, hx, hy⟩, trivial⟩

/-- A name that is visible behind a statement is so behind what is left of it, unless it is unused.
-/
theorem visible_behind {s : Stmt} (hs : s.Confined own R visible)
    (hv : ∀ id ∈ visible, id ∈ visible' ∨ id ∈ unused) :
    ∀ id ∈ introduces s ++ visible,
      id ∈ introducedBy (prune unused s).left.toList ++ visible' ∨ id ∈ unused := by
  intro id hid
  rcases List.mem_append.1 hid with hid | hid
  · cases s with
    | assign p targets value =>
      obtain ⟨⟨q, id', rfl, -⟩, -⟩ := hs
      obtain rfl := List.mem_singleton.1 hid
      by_cases hu : id ∈ unused
      · exact .inr hu
      · left
        simp [prune, bindsUnused, hu, introducedBy, introduces]
    | _ => exact absurd hid List.not_mem_nil
  · exact (hv id hid).imp_left (List.mem_append_right _)

mutual

/-- A round keeps a statement's own names where they are visible. -/
theorem confined_prune : ∀ {s : Stmt} {visible visible' : List String},
    s.Confined own R visible → Expr.Avoid unused s.reads →
      (∀ id ∈ visible, id ∈ visible' ∨ id ∈ unused) →
        ConfinedBlock own R visible' (prune unused s).left.toList
  | assign p targets value, visible, visible', h, ha, hv => by
    simp only [prune]
    split
    · trivial
    · exact ⟨⟨h.1, h.2.avoid ha hv⟩, trivial⟩
  | ifElse p test body orelse, visible, visible', h, ha, hv => by
    rw [reads, Expr.avoid_append, Expr.avoid_append] at ha
    rw [prune]
    exact .settleIf (h.1.avoid ha.1 hv) (confined_pruneStmts h.2.1 ha.2.1 hv).settle
      (confined_pruneStmts h.2.2 ha.2.2 hv).settle
  | forEach p target iter body orelse, visible, visible', h, ha, hv => by
    rw [reads, Expr.avoid_append, Expr.avoid_append] at ha
    obtain ⟨q, id, rfl, hown, hiter, hbody, rfl⟩ := h
    have hinner : ConfinedBlock own R (id :: visible') (pruneStmts unused body).1 := by
      refine confined_pruneStmts hbody ha.2.1 fun x hx => ?_
      rcases List.mem_cons.1 hx with rfl | hx
      · exact .inl List.mem_cons_self
      · exact (hv x hx).imp_left (List.mem_cons_of_mem id)
    rw [prune]
    rcases settle_left (pruneStmts unused body).1 (pruneStmts unused body).2 with
      hnone | ⟨hsome, -, -⟩
    · simp only [hnone]
      trivial
    · simp only [hsome]
      exact ⟨⟨q, id, rfl, hown, hiter.avoid ha.1 hv, hinner, rfl⟩, trivial⟩
  | expr p value, visible, visible', h, ha, hv =>
    ⟨h.imp_right fun h => ⟨h.1.avoid ha hv, h.2⟩, trivial⟩
  | pass _, _, _, _, _, _ => trivial
  | update .., _, _, h, _, _ | whileDo .., _, _, h, _, _ | breakOut _, _, _, h, _, _
  | nextRound _, _, _, h, _, _ => h.elim

/-- A round keeps the own names in a block where they are visible. -/
theorem confined_pruneStmts : ∀ {b : Block} {visible visible' : List String},
    ConfinedBlock own R visible b → Expr.Avoid unused (readsBlock b) →
      (∀ id ∈ visible, id ∈ visible' ∨ id ∈ unused) →
        ConfinedBlock own R visible' (pruneStmts unused b).1
  | [], _, _, _, _, _ => trivial
  | s :: ss, visible, visible', h, ha, hv => by
    rw [readsBlock, Expr.avoid_append] at ha
    rw [pruneStmts_cons]
    exact (confined_prune h.1 ha.1 hv).append
      (confined_pruneStmts h.2 ha.2 (visible_behind h.1 hv))

end

end Stmt

namespace Block

open Stmt

private theorem confined_withoutDeadCode {b c : Block} (hb : ConfinedBlock own R [] b)
    (h : b.withoutDeadCode = some c) : ConfinedBlock own R [] c := by
  have hround {b left : Block} {changed : Bool} (hprune : b.prune = ⟨some left, changed⟩)
      (hb : ConfinedBlock own R [] b) : ConfinedBlock own R [] left := by
    have hleft : ConfinedBlock own R [] (pruneStmts b.unusedNames b).1 :=
      confined_pruneStmts hb (avoid_unusedNames b) nofun
    rwa [(prune_eq_some hprune).1] at hleft
  induction b using withoutDeadCode.induct with
  | case1 b changed hprune =>
    rw [withoutDeadCode, hprune] at h
    cases h
  | case2 b left hprune =>
    rw [withoutDeadCode, hprune] at h
    exact Option.some.inj h ▸ hround hprune hb
  | case3 b left hprune ih =>
    rw [withoutDeadCode, hprune] at h
    exact ih (hround hprune hb) h

/-- Stripping keeps a statement's own names where they are visible. -/
theorem confined_strip {b c : Block} {build : Build} (hk : build.Spares own R)
    (hb : ConfinedBlock own R [] b) (hforeign : Foreign own b.walk)
    (h : (b.strip build).block = some c) : ConfinedBlock own R [] c :=
  confined_withoutDeadCode (confined_foldBlock hk hb hforeign .nothing).live h

end Block
/-! ## The last binding of a statement that asserts nothing -/

namespace Stmt

variable {unused : List String}

/-- A name that is assigned is bound. -/
theorem assignedBlock_subset_bound {b : Block} (hb : ∀ s ∈ b, assigned s ⊆ bound s) :
    assignedBlock b ⊆ boundBlock b := by
  induction b with
  | nil => exact List.Subset.refl _
  | cons s ss ih =>
    rw [assignedBlock, boundBlock]
    refine List.append_subset.2 ⟨List.subset_append_of_subset_left _ (hb s List.mem_cons_self), ?_⟩
    exact List.subset_append_of_subset_right _ (ih fun t ht => hb t (List.mem_cons_of_mem _ ht))

private theorem introduces_subset_bound (s : Stmt) : introduces s ⊆ bound s := by
  unfold introduces
  split
  · exact List.Subset.refl _
  · exact List.nil_subset _

private theorem assigned_subset_bound (s : Stmt) : assigned s ⊆ bound s := by
  induction s using Stmt.partsInduction with
  | assign p targets value => exact List.Subset.refl _
  | ifElse p test body orelse ihb iho | whileDo p test body orelse ihb iho =>
    rw [assigned, bound]
    exact List.append_subset.2
      ⟨List.subset_append_of_subset_left _ (assignedBlock_subset_bound ihb),
        List.subset_append_of_subset_right _ (assignedBlock_subset_bound iho)⟩
  | forEach p target iter body orelse ihb iho =>
    rw [assigned, bound]
    refine List.subset_append_of_subset_right _ (List.append_subset.2 ⟨?_, ?_⟩)
    · exact List.subset_append_of_subset_left _ (assignedBlock_subset_bound ihb)
    · exact List.subset_append_of_subset_right _ (assignedBlock_subset_bound iho)
  | _ => exact List.nil_subset _

end Stmt

private theorem Expr.Confined.mem_visible {e : Expr} {id : String} (h : e.Confined own visible)
    (hid : id ∈ e.walk.filterMap Expr.name?) (hown : own id) : id ∈ visible := by
  obtain ⟨x, hx, hname⟩ := List.mem_filterMap.1 hid
  exact h x hx id hname hown

namespace Stmt

variable {unused : List String}

/-- The name of a comment is the only one in it. -/
theorem eq_commentName {p : Pos} {value : Expr} {id : String}
    (h : (expr p value).isComment = true) (hid : id ∈ value.walk.filterMap Expr.name?) :
    id = commentName := by
  obtain ⟨text, ht⟩ := Option.isSome_iff_exists.1 h
  obtain ⟨p₁, p₂, p₃, rfl⟩ := eq_call_of_comment? ht
  simpa [Expr.walk, Expr.walkList, Expr.name?, eq_comm] using hid

private theorem eq_commentName_of_comments {b : Block} {id : String} (h : b.all isComment = true)
    (hid : id ∈ b.names) : id = commentName := by
  induction b with
  | nil => exact absurd hid List.not_mem_nil
  | cons s ss ih =>
    rw [List.all_cons, Bool.and_eq_true] at h
    rw [Block.names, Block.walk, walkBlock, List.filterMap_append, List.mem_append] at hid
    rcases hid with hid | hid
    · cases s with
      | expr p value => exact eq_commentName h.1 hid
      | _ => simp [isComment, comment?] at h
    · exact ih h.2 hid

mutual

/-- An own name in a statement is visible there or bound by it. -/
theorem mem_visible_or_bound (hcomment : ¬own commentName) : ∀ {s : Stmt} {visible : List String}
    {id : String}, s.Confined own R visible → id ∈ s.walk.filterMap Expr.name? → own id →
      id ∈ visible ∨ id ∈ bound s
  | assign p targets value, visible, id, h, hid, hown => by
    obtain ⟨⟨q, x, rfl, -⟩, hvalue⟩ := h
    rw [walk, List.filterMap_append, List.mem_append] at hid
    rcases hid with hid | hid
    · exact .inr (by simpa [Expr.walkList, Expr.walk, Expr.name?, bound] using hid)
    · exact .inl (hvalue.mem_visible hid hown)
  | ifElse p test body orelse, visible, id, h, hid, hown => by
    rw [walk, List.filterMap_append, List.filterMap_append, List.mem_append, List.mem_append] at hid
    rw [bound, List.mem_append]
    rcases hid with hid | hid | hid
    · exact .inl (h.1.mem_visible hid hown)
    · exact (mem_visible_or_boundBlock hcomment h.2.1 hid hown).imp_right .inl
    · exact (mem_visible_or_boundBlock hcomment h.2.2 hid hown).imp_right .inr
  | forEach p target iter body orelse, visible, id, h, hid, hown => by
    obtain ⟨q, x, rfl, -, hiter, hbody, rfl⟩ := h
    simp only [walk, walkBlock, Expr.walk, List.append_nil, List.filterMap_append,
      List.mem_append] at hid
    simp only [bound, boundBlock, Expr.name?, Option.toList_some, List.append_nil,
      List.singleton_append, List.mem_cons]
    rcases hid with hid | hid | hid
    · exact .inr (.inl (by simpa [Expr.name?] using hid))
    · exact .inl (hiter.mem_visible hid hown)
    · rcases mem_visible_or_boundBlock hcomment hbody hid hown with hv | hb
      · exact (List.mem_cons.1 hv).elim (fun heq => .inr (.inl heq)) .inl
      · exact .inr (.inr hb)
  | expr p value, visible, id, h, hid, hown => by
    rcases h with hc | ⟨hvalue, -⟩
    · exact absurd (eq_commentName hc hid ▸ hown) hcomment
    · exact .inl (hvalue.mem_visible hid hown)
  | pass _, _, _, _, hid, _ => absurd hid List.not_mem_nil
  | update .., _, _, h, _, _ | whileDo .., _, _, h, _, _ | breakOut _, _, _, h, _, _
  | nextRound _, _, _, h, _, _ => h.elim

/-- An own name in a block is visible there or bound by it. -/
theorem mem_visible_or_boundBlock (hcomment : ¬own commentName) : ∀ {b : Block}
    {visible : List String} {id : String}, ConfinedBlock own R visible b →
      id ∈ (walkBlock b).filterMap Expr.name? → own id → id ∈ visible ∨ id ∈ boundBlock b
  | [], _, _, _, hid, _ => absurd hid List.not_mem_nil
  | s :: ss, visible, id, h, hid, hown => by
    rw [walkBlock, List.filterMap_append, List.mem_append] at hid
    rw [boundBlock, List.mem_append]
    rcases hid with hid | hid
    · exact (mem_visible_or_bound hcomment h.1 hid hown).imp_right .inl
    · rcases mem_visible_or_boundBlock hcomment h.2 hid hown with hv | hb
      · rcases List.mem_append.1 hv with hs | hv
        · exact .inr (.inl (introduces_subset_bound s hs))
        · exact .inl hv
      · exact .inr (.inr hb)

end

/-! ### What a round leaves as it is -/

private theorem pruneStmts_cons_fixed {s : Stmt} {ss : Block}
    (h : pruneStmts unused (s :: ss) = (s :: ss, false)) :
    prune unused s = ⟨some s, false⟩ ∧ pruneStmts unused ss = (ss, false) := by
  rw [pruneStmts] at h
  cases hs : prune unused s with
  | mk left changed =>
    cases left with
    | none => simp [hs] at h
    | some t =>
      simp only [hs, Prod.mk.injEq, List.cons.injEq, Bool.or_eq_false_iff] at h
      obtain ⟨⟨rfl, hss⟩, rfl, hrest⟩ := h
      exact ⟨rfl, Prod.ext hss hrest⟩

private theorem prune_ifElse_fixed {p : Pos} {test : Expr} {body orelse : Block}
    (h : prune unused (ifElse p test body orelse) = ⟨some (ifElse p test body orelse), false⟩) :
    (pruneStmts unused body = (body, false) ∧ body.all isComment = false) ∧
      (orelse = [] ∨
        pruneStmts unused orelse = (orelse, false) ∧ orelse.all isComment = false) := by
  have hchanged := congrArg Pruned.changed h
  simp only [prune, settleIf, Bool.or_eq_false_iff] at hchanged
  rw [prune] at h
  rcases settle_unchanged hchanged.1 with ⟨rfl, hb⟩ | ⟨c, hc, hcmore, hb⟩
  · rcases settle_unchanged hchanged.2 with ⟨-, ho⟩ | ⟨d, hd, hdmore, ho⟩
    · simp [settleIf, hb, ho] at h
    · simp only [settleIf, hb, ho, Pruned.mk.injEq, Option.some.injEq, ifElse.injEq] at h
      obtain ⟨-, -, rfl, -⟩ := h.1
      simp at hdmore
  · rcases settle_unchanged hchanged.2 with ⟨rfl, ho⟩ | ⟨d, hd, hdmore, ho⟩
    · simp only [settleIf, hb, ho, Pruned.mk.injEq, Option.some.injEq, ifElse.injEq] at h
      obtain ⟨-, -, rfl, -⟩ := h.1
      exact ⟨⟨hc, hcmore⟩, .inl rfl⟩
    · simp only [settleIf, hb, ho, Pruned.mk.injEq, Option.some.injEq, ifElse.injEq,
        Option.getD_some] at h
      obtain ⟨-, -, rfl, rfl⟩ := h.1
      exact ⟨⟨hc, hcmore⟩, .inr ⟨hd, hdmore⟩⟩

private theorem prune_forEach_fixed {p : Pos} {target iter : Expr} {body orelse : Block}
    (h : prune unused (forEach p target iter body orelse) =
      ⟨some (forEach p target iter body orelse), false⟩) :
    pruneStmts unused body = (body, false) ∧ body.all isComment = false := by
  have hchanged := congrArg Pruned.changed h
  rw [prune] at h
  rcases settle_unchanged hchanged with ⟨-, hb⟩ | ⟨c, hc, hcmore, hb⟩
  · simp [hb] at h
  · simp only [hb, Option.map_some, Pruned.mk.injEq, Option.some.injEq, forEach.injEq] at h
    obtain ⟨-, -, -, rfl, -⟩ := h.1
    exact ⟨hc, hcmore⟩

/-! ### The last binding -/

/-- What is known of statements that a round leaves and that assert nothing, where some names are
visible. -/
structure Idle (unused visible : List String) (b : Block) : Prop where
  /-- No name is bound twice. -/
  once : (boundBlock b).Nodup
  /-- No visible name is bound again. -/
  anew : ∀ id ∈ visible, id ∉ boundBlock b
  /-- A round leaves the statements. -/
  fixed : pruneStmts unused b = (b, false)
  /-- They assert nothing. -/
  silent : b.assertions = []

/-- Whether a name is the statement's own, is assigned in a block, counts as used, and is mentioned
once in the block. -/
structure IsLast (own : String → Prop) (unused : List String) (b : Block) (id : String) : Prop where
  /-- The name is the statement's own. -/
  own : own id
  /-- It is assigned. -/
  assigned : id ∈ assignedBlock b
  /-- It counts as used. -/
  used : id ∉ unused
  /-- It is mentioned once. -/
  once : b.names.count id = 1

variable {b c : Block} {s : Stmt} {ss : Block} {id : String}

private theorem IsLast.mem_bound (h : IsLast own unused b id) : id ∈ boundBlock b :=
  assignedBlock_subset_bound (fun s _ => assigned_subset_bound s) h.assigned

/-- A name that is visible is not the one that a block binds last. -/
theorem Idle.notMem_visible (hb : Idle unused visible b) (hid : IsLast own unused b id) :
    id ∉ visible :=
  fun hv => hb.anew id hv hid.mem_bound

/-- Idle statements are so one by one, and bind different names. -/
theorem Idle.cons (h : Idle unused visible (s :: ss)) :
    Idle unused visible [s] ∧ Idle unused (introduces s ++ visible) ss ∧
      ∀ id ∈ bound s, id ∉ boundBlock ss := by
  obtain ⟨honce, hanew, hfixed, hsilent⟩ := h
  obtain ⟨hs, hss⟩ := pruneStmts_cons_fixed hfixed
  rw [boundBlock, List.nodup_append] at honce
  have hdisjoint : ∀ id ∈ bound s, id ∉ boundBlock ss := fun id h h' => honce.2.2 id h id h' rfl
  simp only [boundBlock, List.mem_append, not_or] at hanew
  rw [← List.singleton_append, Block.assertions_append, List.append_eq_nil_iff] at hsilent
  refine ⟨⟨?_, ?_, by simp [pruneStmts, hs], hsilent.1⟩, ⟨honce.2.1, ?_, hss, hsilent.2⟩, hdisjoint⟩
  · simpa [boundBlock] using honce.1
  · simpa [boundBlock] using fun id hid => (hanew id hid).1
  · intro id hid
    rcases List.mem_append.1 hid with hid | hid
    · exact hdisjoint id (introduces_subset_bound s hid)
    · exact (hanew id hid).2

/-- The blocks of an idle `if` are idle, neither holds only comments, and they bind different names.
-/
theorem Idle.ifElse {p : Pos} {test : Expr} {body orelse : Block}
    (h : Idle unused visible [ifElse p test body orelse]) :
    (Idle unused visible body ∧ body.all isComment = false) ∧
      (orelse = [] ∨ Idle unused visible orelse ∧ orelse.all isComment = false) ∧
        ∀ id ∈ boundBlock body, id ∉ boundBlock orelse := by
  obtain ⟨honce, hanew, hfixed, hsilent⟩ := h
  obtain ⟨⟨hb, hbopen⟩, ho⟩ := prune_ifElse_fixed (pruneStmts_cons_fixed hfixed).1
  simp only [boundBlock, bound, List.append_nil, List.nodup_append] at honce
  simp only [boundBlock, bound, List.append_nil, List.mem_append, not_or] at hanew
  rw [assertions_ifElse, List.append_eq_nil_iff] at hsilent
  refine ⟨⟨⟨honce.1, fun id hid => (hanew id hid).1, hb, hsilent.1⟩, hbopen⟩, ?_,
    fun id h h' => honce.2.2 id h id h' rfl⟩
  exact ho.imp_right fun ho =>
    ⟨⟨honce.2.1, fun id hid => (hanew id hid).2, ho.1, hsilent.2⟩, ho.2⟩

/-- The block of an idle loop is idle, and does not bind the variable of the loop. -/
theorem Idle.forEach {p q : Pos} {x : String} {iter : Expr} {body : Block}
    (h : Idle unused visible [forEach p (.name q x) iter body []]) :
    (Idle unused (x :: visible) body ∧ body.all isComment = false) ∧ x ∉ boundBlock body := by
  obtain ⟨honce, hanew, hfixed, hsilent⟩ := h
  obtain ⟨hb, hbopen⟩ := prune_forEach_fixed (pruneStmts_cons_fixed hfixed).1
  simp only [boundBlock, bound, Expr.name?, Option.toList_some, List.append_nil,
    List.singleton_append, List.nodup_cons] at honce
  simp only [boundBlock, bound, Expr.name?, Option.toList_some, List.append_nil,
    List.singleton_append, List.mem_cons, not_or] at hanew
  rw [assertions_forEach, List.append_eq_nil_iff] at hsilent
  refine ⟨⟨⟨honce.2, fun id hid => ?_, hb, hsilent.1⟩, hbopen⟩, honce.1⟩
  rcases List.mem_cons.1 hid with rfl | hid
  · exact honce.1
  · exact (hanew id hid).2

/-- The last binding of a block is that of a statement around it, if the name stands nowhere else.
-/
theorem IsLast.within {names names' : List String} (h : IsLast own unused b id)
    (hassigned : assignedBlock b ⊆ assignedBlock c) (hc : c.names = names ++ (b.names ++ names'))
    (hbefore : id ∉ names) (hbehind : id ∉ names') : IsLast own unused c id where
  own := h.own
  assigned := hassigned h.assigned
  used := h.used
  once := by
    rw [hc, List.count_append, List.count_append, List.count_eq_zero.2 hbefore,
      List.count_eq_zero.2 hbehind, h.once]

private theorem names_ifElse (p : Pos) (test : Expr) (body orelse : Block) :
    Block.names [ifElse p test body orelse] =
      test.walk.filterMap Expr.name? ++ (body.names ++ orelse.names) := by
  simp [Block.names, Block.walk, walkBlock, walk]

private theorem names_forEach (p q : Pos) (x : String) (iter : Expr) (body : Block) :
    Block.names [forEach p (.name q x) iter body []] =
      x :: iter.walk.filterMap Expr.name? ++ (body.names ++ []) := by
  simp [Block.names, Block.walk, walkBlock, walk, Expr.walk, Expr.name?]

mutual

/-- Of a statement that a round leaves and that asserts nothing, the last binding is mentioned
once. -/
theorem exists_isLast (hcomment : ¬own commentName) : ∀ {s : Stmt} {visible : List String},
    s.Confined own R visible → Idle unused visible [s] → s.isComment = false →
      ∃ id, IsLast own unused [s] id
  | assign p targets value, visible, h, hidle, _ => by
    obtain ⟨⟨q, id, rfl, hown⟩, hvalue⟩ := h
    have hnew : id ∉ value.walk.filterMap Expr.name? := fun hmem =>
      hidle.anew id (hvalue.mem_visible hmem hown) (by simp [boundBlock, bound, Expr.name?])
    have hused : id ∉ unused := by
      have hleft := congrArg Pruned.left (pruneStmts_cons_fixed hidle.fixed).1
      simpa [prune, bindsUnused] using hleft
    refine ⟨id, hown, by simp [assignedBlock, assigned, Expr.name?], hused, ?_⟩
    simp [Block.names, Block.walk, walkBlock, walk, Expr.walkList, Expr.walk, Expr.name?,
      List.count_eq_zero.2 hnew]
  | ifElse p test body orelse, visible, h, hidle, _ => by
    obtain ⟨⟨hbody, hbopen⟩, horelse, hdisjoint⟩ := hidle.ifElse
    rcases horelse with rfl | ⟨horelse, hoopen⟩
    · obtain ⟨id, hid⟩ := exists_isLast_block hcomment h.2.1 hbody hbopen
      refine ⟨id, hid.within ?_ (names_ifElse p test body []) ?_ List.not_mem_nil⟩
      · simp [assignedBlock, assigned]
      · exact fun hmem => hbody.notMem_visible hid (h.1.mem_visible hmem hid.own)
    · obtain ⟨id, hid⟩ := exists_isLast_block hcomment h.2.2 horelse hoopen
      have hnames : Block.names [ifElse p test body orelse] =
          (test.walk.filterMap Expr.name? ++ Block.names body) ++ (Block.names orelse ++ []) := by
        rw [names_ifElse, List.append_nil, List.append_assoc]
      refine ⟨id, hid.within ?_ hnames (fun hmem => ?_) List.not_mem_nil⟩
      · simp [assignedBlock, assigned]
      · rcases List.mem_append.1 hmem with hmem | hmem
        · exact horelse.notMem_visible hid (h.1.mem_visible hmem hid.own)
        · rcases mem_visible_or_boundBlock hcomment h.2.1 hmem hid.own with hv | hb
          · exact horelse.notMem_visible hid hv
          · exact hdisjoint id hb hid.mem_bound
  | forEach p target iter body orelse, visible, h, hidle, _ => by
    obtain ⟨q, x, rfl, -, hiter, hbody, rfl⟩ := h
    obtain ⟨⟨hin, hopen⟩, hx⟩ := hidle.forEach
    obtain ⟨id, hid⟩ := exists_isLast_block hcomment hbody hin hopen
    refine ⟨id, hid.within ?_ (names_forEach p q x iter body) (fun hmem => ?_) List.not_mem_nil⟩
    · simp [assignedBlock, assigned]
    · rcases List.mem_cons.1 hmem with rfl | hmem
      · exact hx hid.mem_bound
      · exact hin.notMem_visible hid (List.mem_cons_of_mem x (hiter.mem_visible hmem hid.own))
  | expr p value, visible, h, hidle, hc => by
    have hsilent := hidle.silent
    simp [Block.assertions, Block.statements, nestedBlock, nested, asserts, hc] at hsilent
  | pass p, visible, h, hidle, _ => by
    have hfixed := (pruneStmts_cons_fixed hidle.fixed).1
    simp [prune] at hfixed
  | update .., _, h, _, _ | whileDo .., _, h, _, _ | breakOut _, _, h, _, _
  | nextRound _, _, h, _, _ => h.elim

/-- Of a block that a round leaves and that asserts nothing, the last binding is mentioned once. -/
theorem exists_isLast_block (hcomment : ¬own commentName) : ∀ {b : Block} {visible : List String},
    ConfinedBlock own R visible b → Idle unused visible b → b.all isComment = false →
      ∃ id, IsLast own unused b id
  | [], _, _, _, hopen => by simp at hopen
  | s :: ss, visible, h, hidle, hopen => by
    obtain ⟨hs, hss, hdisjoint⟩ := hidle.cons
    by_cases hcomments : ss.all isComment = false
    · obtain ⟨id, hid⟩ := exists_isLast_block hcomment h.2 hss hcomments
      have hnames : Block.names (s :: ss) =
          s.walk.filterMap Expr.name? ++ (Block.names ss ++ []) := by
        simp [Block.names, Block.walk, walkBlock]
      refine ⟨id, hid.within ?_ hnames (fun hmem => ?_) List.not_mem_nil⟩
      · exact List.subset_append_right _ _
      · rcases mem_visible_or_bound hcomment h.1 hmem hid.own with hv | hb
        · exact hss.notMem_visible hid (List.mem_append_right _ hv)
        · exact hdisjoint id hb hid.mem_bound
    · -- only comments stand behind the statement
      rw [List.all_cons, Bool.and_eq_false_iff] at hopen
      obtain ⟨id, hid⟩ := exists_isLast hcomment h.1 hs (hopen.resolve_right hcomments)
      have hnames : Block.names (s :: ss) = [] ++ (Block.names [s] ++ Block.names ss) :=
        Block.names_append [s] ss
      refine ⟨id, hid.within ?_ hnames List.not_mem_nil fun hmem => ?_⟩
      · simp [assignedBlock]
      · rw [Bool.not_eq_false] at hcomments
        exact hcomment (eq_commentName_of_comments hcomments hmem ▸ hid.own)

end

end Stmt
namespace Block

open Stmt

/-- What is left without dead code asserts something, if its own names are visible where they stand
and no name is bound twice in it. -/
theorem assertions_ne_nil_of_prune {c : Block} (hcomment : ¬own commentName)
    (hc : ConfinedBlock own R [] c) (honce : c.bound.Nodup) (hprune : c.prune = ⟨some c, false⟩) :
    c.assertions ≠ [] := by
  intro hsilent
  obtain ⟨hfixed, hopen⟩ := prune_eq_some hprune
  obtain ⟨id, hid⟩ := exists_isLast_block hcomment hc ⟨honce, nofun, hfixed, hsilent⟩ hopen
  refine hid.used ?_
  rw [unusedNames, List.mem_filter, mentions_eq_count, hid.once]
  exact ⟨hid.assigned, rfl⟩

end Block

/-! ## Accepted statements -/

/-- Whether a use is of a name of the statement's own only where that is visible, and calls none. -/
structure Use.Respects (own : String → Prop) (u : Use) : Prop where
  /-- An own name is visible. -/
  visible : ∀ id, u.expr.name? = some id → own id → u.visible.binds id = true
  /-- No own name is called. -/
  called : ∀ id, u.expr.callName? = some id → ¬own id

namespace Stmt

/-- What is found out about statements from their uses, their targets and the names they bind. -/
structure Respects (own : String → Prop) (R : Expr → Prop) (us : List Use)
    (ts : List (Locals × Expr)) (ids : List String) (b : Block) : Prop where
  /-- Every use is of a name where it is visible. -/
  uses : ∀ u ∈ us, u.Respects own
  /-- Every target is a name. -/
  targets : ∀ t ∈ ts, t.2.name?.isSome = true
  /-- Every name that is bound is the statement's own. -/
  bound : ∀ id ∈ ids, own id
  /-- Every statement is of a form that the language has. -/
  forms : ∀ x ∈ b.statements, x.isInLanguage = true
  /-- What stands as a statement is of the kind. -/
  kind : ∀ p value, Stmt.expr p value ∈ b.assertions → R value

/-- What is found out about two parts together is found out about each. -/
theorem Respects.append {us us' : List Use} {ts ts' : List (Locals × Expr)} {ids ids' : List String}
    {b b' : Block} (h : Respects own R (us ++ us') (ts ++ ts') (ids ++ ids') (b ++ b')) :
    Respects own R us ts ids b ∧ Respects own R us' ts' ids' b' := by
  obtain ⟨hu, ht, hi, hf, hk⟩ := h
  rw [List.forall_mem_append] at hu ht hi
  rw [Block.statements_append, List.forall_mem_append] at hf
  simp only [Block.assertions_append, List.mem_append] at hk
  exact ⟨⟨hu.1, ht.1, hi.1, hf.1, fun p value h => hk p value (.inl h)⟩,
    ⟨hu.2, ht.2, hi.2, hf.2, fun p value h => hk p value (.inr h)⟩⟩

/-- The own names of an expression are visible where its uses respect them. -/
theorem confined_of_usesAt {visible : Locals} {role : Role} {e : Expr}
    (h : ∀ u ∈ usesAt visible role e, u.Respects own) : e.Confined own (visible.map (·.name)) := by
  intro x hx id hid hown
  rcases Expr.exists_mem_uses role hx with ⟨u, hu, rfl⟩ | ⟨-, u, hu, p, args, hcall⟩
  · have hbinds := (h _ (List.mem_map_of_mem hu)).visible id hid hown
    obtain ⟨l, hl, hname⟩ := List.any_eq_true.1 hbinds
    exact List.mem_map.2 ⟨l, hl, beq_iff_eq.1 hname⟩
  · refine absurd hown ((h _ (List.mem_map_of_mem hu)).called id ?_)
    simp [hcall, Expr.callName?, hid]

private theorem map_name_assigns {s : Stmt} {ids : List String} (h : s.Confined own R ids) :
    s.assigns.map (·.name) = introduces s := by
  cases s with
  | assign p targets value =>
    obtain ⟨⟨q, id, rfl, -⟩, -⟩ := h
    rfl
  | _ => rfl

mutual

/-- A statement has its own names where they are visible if its uses do. -/
theorem confined_of_respects : ∀ {s : Stmt} {visible : Locals},
    Respects own R (uses visible s) (targets visible s) (bound s) [s] →
      s.Confined own R (visible.map (·.name))
  | assign p targets value, visible, h => by
    have hlen := h.forms _ (List.mem_singleton_self _)
    simp only [isInLanguage, beq_iff_eq] at hlen
    obtain ⟨target, rfl⟩ := List.length_eq_one_iff.1 hlen
    have hname := h.targets _ (List.mem_singleton_self _)
    cases target with
    | name q id => exact ⟨⟨q, id, rfl, h.bound id (by simp [bound, Expr.name?])⟩,
        confined_of_usesAt h.uses⟩
    | _ => cases hname
  | ifElse p test body orelse, visible, h => by
    obtain ⟨hu, ht, hi, hf, hk⟩ := h
    rw [uses, List.forall_mem_append] at hu
    simp only [Block.statements, nestedBlock, nested, List.append_nil, List.forall_mem_cons] at hf
    rw [assertions_ifElse] at hk
    have hblocks : Respects own R (usesBlock visible body ++ usesBlock visible orelse)
        (targetsBlock visible body ++ targetsBlock visible orelse)
        (boundBlock body ++ boundBlock orelse) (body ++ orelse) :=
      ⟨hu.2, ht, hi, by rw [Block.statements_append]; exact hf.2,
        by rw [Block.assertions_append]; exact hk⟩
    exact ⟨confined_of_usesAt hu.1, confinedBlock_of_respects hblocks.append.1,
      confinedBlock_of_respects hblocks.append.2⟩
  | forEach p target iter body orelse, visible, h => by
    obtain ⟨hu, ht, hi, hf, hk⟩ := h
    have horelse := hf _ List.mem_cons_self
    obtain rfl : orelse = [] := by simpa [isInLanguage] using horelse
    have hname := ht _ List.mem_cons_self
    cases target with
    | name q id =>
      rw [uses, List.forall_mem_append] at hu
      simp only [Block.statements, nestedBlock, nested, List.append_nil,
        List.forall_mem_cons] at hf
      simp only [targets, targetsBlock, List.append_nil, List.forall_mem_cons] at ht
      simp only [bound, boundBlock, Expr.name?, Option.toList_some, List.append_nil,
        List.singleton_append, List.forall_mem_cons] at hi
      rw [assertions_forEach, Block.assertions_nil, List.append_nil] at hk
      rw [usesBlock, List.append_nil] at hu
      have hbody : Respects own R (usesBlock (Local.ofTarget true (.name q id) ++ visible) body)
          (targetsBlock (Local.ofTarget true (.name q id) ++ visible) body)
          (boundBlock body) body :=
        ⟨hu.2, ht.2, hi.2, hf.2, hk⟩
      exact ⟨q, id, rfl, hi.1, confined_of_usesAt hu.1, confinedBlock_of_respects hbody, rfl⟩
    | _ => cases hname
  | expr p value, visible, h => by
    cases hc : (expr p value).isComment with
    | true => exact .inl hc
    | false =>
      have hu := h.uses
      rw [uses, if_neg (by simp [hc])] at hu
      refine .inr ⟨confined_of_usesAt hu, h.kind p value ?_⟩
      simp [Block.assertions, Block.statements, nestedBlock, nested, asserts, hc]
  | pass _, _, _ => trivial
  | update .., _, h | whileDo .., _, h | breakOut _, _, h | nextRound _, _, h =>
    absurd (h.forms _ List.mem_cons_self) nofun

/-- A block has its own names where they are visible if its uses do. -/
theorem confinedBlock_of_respects : ∀ {b : Block} {visible : Locals},
    Respects own R (usesBlock visible b) (targetsBlock visible b) (boundBlock b) b →
      ConfinedBlock own R (visible.map (·.name)) b
  | [], _, _ => trivial
  | s :: ss, visible, h => by
    obtain ⟨hs, hss⟩ := Respects.append (b := [s]) h
    have hstmt := confined_of_respects hs
    refine ⟨hstmt, ?_⟩
    rw [← map_name_assigns hstmt, ← List.map_append]
    exact confinedBlock_of_respects hss

end

mutual

/-- What asserts something in a statement is of the kind. -/
theorem Confined.kind : ∀ {s : Stmt} {visible : List String}, s.Confined own R visible →
    ∀ p value, expr p value ∈ Block.assertions [s] → R value
  | ifElse p test body orelse, visible, h, q, value, hmem => by
    rw [assertions_ifElse, List.mem_append] at hmem
    exact hmem.elim (ConfinedBlock.kind h.2.1 q value) (ConfinedBlock.kind h.2.2 q value)
  | forEach p target iter body orelse, visible, h, q, value, hmem => by
    obtain ⟨-, id, -, -, -, hbody, rfl⟩ := h
    rw [assertions_forEach, Block.assertions_nil, List.append_nil] at hmem
    exact ConfinedBlock.kind hbody q value hmem
  | expr p value, visible, h, q, value', hmem => by
    cases hc : (expr p value).isComment with
    | true => simp [assertions_of_isComment hc] at hmem
    | false =>
      simp only [Block.assertions, Block.statements, nestedBlock, nested, List.append_nil,
        List.mem_filter, List.mem_singleton, expr.injEq] at hmem
      obtain ⟨⟨-, rfl⟩, -⟩ := hmem
      exact (h.resolve_left (by simp [hc])).2
  | assign .., _, _, _, _, hmem | pass _, _, _, _, _, hmem => absurd hmem List.not_mem_nil
  | update .., _, h, _, _, _ | whileDo .., _, h, _, _, _ | breakOut _, _, h, _, _, _
  | nextRound _, _, h, _, _, _ => h.elim

/-- What asserts something in a block is of the kind. -/
theorem ConfinedBlock.kind : ∀ {b : Block} {visible : List String}, ConfinedBlock own R visible b →
    ∀ p value, expr p value ∈ b.assertions → R value
  | [], _, _, _, _, hmem => absurd hmem List.not_mem_nil
  | s :: ss, visible, h, p, value, hmem => by
    rw [← List.singleton_append, Block.assertions_append, List.mem_append] at hmem
    exact hmem.elim (Confined.kind h.1 p value) (ConfinedBlock.kind h.2 p value)

end

private theorem mem_targets_of_mem_boundBlock {b : Block} {id : String}
    (ih : ∀ s ∈ b, ∀ visible, id ∈ bound s → ∃ t ∈ targets visible s, t.2.name? = some id)
    (visible : Locals) (h : id ∈ boundBlock b) :
    ∃ t ∈ targetsBlock visible b, t.2.name? = some id := by
  induction b generalizing visible with
  | nil => exact absurd h List.not_mem_nil
  | cons s ss ihb =>
    rw [boundBlock, List.mem_append] at h
    rcases h with h | h
    · obtain ⟨t, ht, hname⟩ := ih s List.mem_cons_self visible h
      exact ⟨t, List.mem_append_left _ ht, hname⟩
    · obtain ⟨t, ht, hname⟩ := ihb (fun x hx => ih x (List.mem_cons_of_mem _ hx)) _ h
      exact ⟨t, List.mem_append_right _ ht, hname⟩

/-- A name that is bound is a target. -/
theorem mem_targets_of_mem_bound {id : String} (s : Stmt) :
    ∀ visible, id ∈ bound s → ∃ t ∈ targets visible s, t.2.name? = some id := by
  induction s using Stmt.partsInduction with
  | assign p ts value =>
    intro visible h
    obtain ⟨t, ht, hname⟩ := List.mem_filterMap.1 h
    exact ⟨(visible, t), List.mem_map_of_mem ht, hname⟩
  | ifElse p test body orelse ihb iho | whileDo p test body orelse ihb iho =>
    intro visible h
    rw [bound, List.mem_append] at h
    rcases h with h | h
    · obtain ⟨t, ht, hname⟩ := mem_targets_of_mem_boundBlock ihb visible h
      exact ⟨t, List.mem_append_left _ ht, hname⟩
    · obtain ⟨t, ht, hname⟩ := mem_targets_of_mem_boundBlock iho visible h
      exact ⟨t, List.mem_append_right _ ht, hname⟩
  | forEach p target iter body orelse ihb iho =>
    intro visible h
    rw [bound, List.mem_append, List.mem_append] at h
    rcases h with h | h | h
    · exact ⟨_, List.mem_cons_self, Option.mem_toList.1 h⟩
    · obtain ⟨t, ht, hname⟩ := mem_targets_of_mem_boundBlock ihb _ h
      exact ⟨t, List.mem_cons_of_mem _ (List.mem_append_left _ ht), hname⟩
    · obtain ⟨t, ht, hname⟩ := mem_targets_of_mem_boundBlock iho _ h
      exact ⟨t, List.mem_cons_of_mem _ (List.mem_append_right _ ht), hname⟩
  | _ =>
    intro visible h
    exact absurd h List.not_mem_nil

/-- Whether a statement is a requirement. -/
def isRequirement : Stmt → Bool
  | expr _ value => value.callName? == some Predicate.require.name
  | _ => false

end Stmt

namespace Block

open Stmt Verification

/-- Whether a name is none that comments, texts or extensions have. -/
structure IsApart (b : Block) (build : Build) (id : String) : Prop where
  /-- It is not called by comments. -/
  comment : id ≠ commentName
  /-- It does not stand for an old feature. -/
  extension : ∀ feature, build.config.legacyAlias? feature ≠ some id
  /-- It does not stand in a text. -/
  text : ∀ u ∈ b.uses, u.role = .text → ∀ x ∈ u.expr.walk, x.name? ≠ some id

/-- Whether a name can be one of a statement's own. -/
structure IsOwn (s : Subject) (b : Block) (build : Build) (id : String) : Prop
    extends b.IsApart build id where
  /-- The subject and the API do not have it. -/
  unknown : s.nameType? id = none
  /-- No predicate has it. -/
  predicate : isPredicateName id = false

variable {s : Subject} {b c : Block} {build : Build}

/-- A name that may be bound is known to nobody else. -/
theorem isOwn_of_admits {visible : Locals} {target : Expr} {id : String}
    (h : visible.admits s target = true) (hname : target.name? = some id)
    (hapart : b.IsApart build id) : b.IsOwn s build id := by
  simp only [Locals.admits, hname, Option.any_some, Bool.and_eq_true, Bool.not_eq_true',
    Subject.isParameter, Subject.isToken, Subject.isNullName, Bool.or_eq_false_iff,
    beq_eq_false_iff_ne, Option.isSome_eq_false_iff, Option.isNone_iff_eq_none] at h
  obtain ⟨⟨⟨-, hpredicate⟩, hparameter⟩, ⟨hnull, hhandle⟩, htoken⟩ := h
  refine ⟨hapart, ?_, hpredicate⟩
  simp [Subject.nameType?, Registry.memberType?, hnull, hhandle, hparameter, htoken]

private theorem respects_of_accepts {types : List (Expr × Ty)} {scope : Scope} {u : Use}
    (ha : Agrees scope u.visible) (h : Accepts s scope types (u.role, u.expr)) :
    u.Respects (b.IsOwn s build) := by
  have hclean : (checkExpr s scope u.expr).issues = [] := h.clean
  constructor
  · intro id hid hown
    cases he : u.expr with
    | name p id' =>
      obtain rfl : id' = id := by simpa [he, Expr.name?] using hid
      rw [he] at hclean
      refine ha.binds id' ▸ (known_of_clean hclean).resolve_right ?_
      simp [hown.unknown]
    | _ => simp [he, Expr.name?] at hid
  · intro id hid hown
    cases he : u.expr with
    | call p func args =>
      cases func with
      | name q id' =>
        obtain rfl : id' = id := by simpa [he, Expr.callName?, Expr.name?] using hid
        rw [he] at hclean
        obtain ⟨pred, hpred, -⟩ := clean_call_name hclean
        have hpredicate := hown.predicate
        simp [isPredicateName, hpred] at hpredicate
      | _ => simp [he, Expr.callName?, Expr.name?] at hid
    | _ => simp [he, Expr.callName?] at hid

/-- No own name stands in a text. -/
theorem respects_of_text {u : Use} (hu : u ∈ b.uses) (htext : u.role = .text) :
    u.Respects (b.IsOwn s build) where
  visible id hid hown := absurd hid (hown.text u hu htext _ (Expr.self_mem_walk _))
  called id hid hown := by
    cases he : u.expr with
    | call p func args =>
      refine absurd ?_ (hown.text u hu htext func ?_)
      · simpa [he, Expr.callName?] using hid
      · rw [he, Expr.walk]
        exact List.mem_cons_of_mem _ (List.mem_append_left _ (Expr.self_mem_walk func))
    | _ => simp [he, Expr.callName?] at hid

/-- An accepted statement has its own names where they are visible. -/
theorem confined_of_isOk (hok : (b.verify s).isOk = true)
    (hapart : ∀ id ∈ b.bound, b.IsApart build id)
    (hkind : ∀ p value, Stmt.expr p value ∈ b.assertions → R value) :
    ConfinedBlock (b.IsOwn s build) R [] b := by
  obtain ⟨hf, -⟩ := finds_of_isOk hok
  have hrespects : Respects (b.IsOwn s build) R (usesBlock [] b) (targetsBlock [] b)
      (boundBlock b) b := by
    refine ⟨fun u hu => ?_, fun t ht => ?_, fun id hid => ?_, hf.forms, hkind⟩
    · by_cases htext : u.role = .text
      · exact respects_of_text hu htext
      · obtain ⟨scope, ha, hc⟩ := hf.accepts u hu htext
        exact respects_of_accepts ha hc
    · obtain ⟨id, hid, -⟩ := Option.any_eq_true _ _ |>.1 (hf.admits t ht)
      exact Option.isSome_of_eq_some hid
    · obtain ⟨t, ht, hname⟩ :=
        mem_targets_of_mem_boundBlock (fun x _ => mem_targets_of_mem_bound x) [] hid
      exact isOwn_of_admits (hf.admits t ht) hname (hapart id hid)
  exact confinedBlock_of_respects hrespects

/-- What folding leaves alone in an accepted statement stands in texts, and has no own name. -/
theorem foreign_of_isOk (hok : (b.verify s).isOk = true) :
    Foreign (b.IsOwn s build) b.walk := by
  obtain ⟨hf, -⟩ := finds_of_isOk hok
  intro x hx hleft y hy id hid hown
  have hform : x.isInLanguage = false := by
    cases x <;> simp_all [Expr.isLeftAlone, Expr.isInLanguage]
  rcases accounts_block (fun s _ visible => accounts_of_mem_walk s visible) [] hx with
    hin | ⟨u, hu, rfl⟩ | ⟨t, ht, hx⟩
  · cases hform.symm.trans hin
  · by_cases htext : u.role = .text
    · exact hown.text u hu htext y hy hid
    · obtain ⟨scope, -, hc⟩ := hf.accepts u hu htext
      cases hform.symm.trans (isInLanguage_of_clean hc.clean)
  · obtain ⟨id', hid', -⟩ := Option.any_eq_true _ _ |>.1 (hf.admits t ht)
    cases htarget : t.2 with
    | name p id' =>
      have hpath := Expr.isPath_of_mem_walk_name (htarget ▸ hx)
      cases hform.symm.trans (Expr.isInLanguage_of_isPath hpath)
    | _ => simp [htarget, Expr.name?] at hid'

/-- Folding spares the own names, and keeps requirements. -/
theorem spares_requirements (s : Subject) (b : Block) (build : Build) :
    build.Spares (b.IsOwn s build) fun e => e.callName? = some Predicate.require.name where
  asked hown := absurd hown.predicate (by decide)
  extension feature ext hext hown := hown.extension feature hext
  kind e names hown hrequire := by
    have hnames : names.get? Predicate.require.name = none := by
      cases hv : names.get? Predicate.require.name with
      | none => rfl
      | some v => exact absurd (hown _ (by rw [hv]; rfl)).predicate (by decide)
    cases e with
    | call p func args =>
      cases func with
      | name q id =>
        obtain rfl : id = Predicate.require.name := Option.some.inj hrequire
        rw [Expr.fold_requirement hnames]
        rfl
      | _ => exact absurd hrequire nofun
    | _ => exact absurd hrequire nofun

private theorem spares_all (s : Subject) (b : Block) (build : Build) :
    build.Spares (b.IsOwn s build) fun _ => True :=
  ⟨(spares_requirements s b build).asked, (spares_requirements s b build).extension,
    fun _ _ _ _ => trivial⟩

/-- What a build leaves of an accepted statement asserts something, if no name is bound twice in
what is left, and no name that the statement binds is that of comments, in a text, or of an
extension that stands for a feature. If all that the statement asserts are requirements, a
requirement is left. -/
theorem requires_of_strip (hok : (b.verify s).isOk = true)
    (hapart : ∀ id ∈ b.bound, b.IsApart build id) (h : (b.strip build).block = some c)
    (honce : c.bound.Nodup) :
    (∃ x ∈ c.statements, x.asserts = true) ∧
      ((∀ x ∈ b.statements, x.asserts = true → x.isRequirement = true) →
        ∃ x ∈ c.statements, x.isRequirement = true) := by
  have hleft : ∃ x ∈ c.statements, x.asserts = true := by
    have hc := confined_strip (spares_all s b build)
      (confined_of_isOk hok hapart fun _ _ _ => trivial) (foreign_of_isOk hok) h
    have hne := assertions_ne_nil_of_prune (fun hown => hown.comment rfl) hc honce
      (normal_of_strip h).2.2
    obtain ⟨x, hx⟩ := List.exists_mem_of_ne_nil _ hne
    exact ⟨x, List.mem_filter.1 hx⟩
  refine ⟨hleft, fun hrequirements => ?_⟩
  have hkind (p : Pos) (value : Expr) (hmem : Stmt.expr p value ∈ b.assertions) :
      value.callName? = some Predicate.require.name := by
    obtain ⟨hx, ha⟩ := List.mem_filter.1 hmem
    exact beq_iff_eq.1 (hrequirements _ hx ha)
  have hc := confined_strip (spares_requirements s b build) (confined_of_isOk hok hapart hkind)
    (foreign_of_isOk hok) h
  obtain ⟨x, hx, ha⟩ := hleft
  refine ⟨x, hx, ?_⟩
  cases x with
  | expr p value =>
    exact beq_iff_eq.2 (ConfinedBlock.kind hc p value (List.mem_filter.2 ⟨hx, ha⟩))
  | _ => cases ha

/-- A command with a number of regions. -/
private def countedRegions : Subject where
  registry := { entities := [{
    name := "vkCmdCopyRegions", category := .command,
    members := [⟨"regionCount", "uint32_t", 0, none, none⟩] }] }
  api := "vkCmdCopyRegions"

/-- The number of regions. -/
private def regionCount : Expr := .name .none "regionCount"

/-- A name for the number of regions. -/
private def nameCount : Stmt := .assign .none [.name .none "x"] regionCount

/-- A requirement. -/
private def requires (e : Expr) : Stmt := .expr .none (.call .none (.name .none "require") [e])

/-- The condition on a version. -/
private def isMinor (minor : Nat) : Expr :=
  .call .none (.name .none "is_version") [.const .none (.int 1), .const .none (.int minor)]

/-- A comparison of the number of regions with zero. -/
private def noRegions : Expr := .compare .none regionCount [.eq] [.const .none (.int 0)]

/-- A statement whose branches use the same name. -/
private def namedInBranches : Block :=
  [.ifElse .none noRegions [.assign .none [.name .none "x"] (isMinor 1), requires (.name .none "x")]
    [.assign .none [.name .none "x"] noRegions, requires (.name .none "x")]]

/-- Of a name that two branches use one binding is left, and both requirements. -/
theorem requires_of_strip_namedInBranches :
    (namedInBranches.verify countedRegions).isOk = true ∧
      ∃ c, (namedInBranches.strip firstBuild).block = some c ∧ c.bound = ["x"] ∧
        ∃ x ∈ c.statements, x.isRequirement = true := by
  have hok : (namedInBranches.verify countedRegions).isOk = true := by decide +kernel
  have hapart : ∀ id ∈ namedInBranches.bound, namedInBranches.IsApart firstBuild id := by
    have hbound : namedInBranches.bound = ["x", "x"] := rfl
    intro id hid
    obtain rfl : id = "x" := by simpa [hbound] using hid
    exact ⟨by decide, nofun, by decide +kernel⟩
  have hstrip : (namedInBranches.strip firstBuild).block =
      some [.ifElse .none noRegions [requires (.const .none (.bool false))]
        [.assign .none [.name .none "x"] noRegions, requires (.name .none "x")]] :=
    withoutDeadCode_of_prune rfl
  refine ⟨hok, _, hstrip, rfl, ?_⟩
  exact (requires_of_strip hok hapart hstrip (by decide)).2 (by decide +kernel)

/-- A statement whose branches name the number of regions and require a version. -/
private def namedForVersion : Block :=
  [.ifElse .none noRegions [nameCount, requires (isMinor 0)] [nameCount, requires (isMinor 0)]]

/-- An accepted statement of which both bindings of a name are left, and no requirement. -/
theorem strip_namedForVersion :
    (namedForVersion.verify countedRegions).isOk = true ∧
      ∃ c, (namedForVersion.strip firstBuild).block = some c ∧
        c = [.ifElse .none noRegions [nameCount] [nameCount]] ∧
        ∀ x ∈ c.statements, x.isRequirement = false := by
  refine ⟨by decide +kernel, _, withoutDeadCode_of_prune rfl, rfl, by decide +kernel⟩

end Block
end ValidUsage
