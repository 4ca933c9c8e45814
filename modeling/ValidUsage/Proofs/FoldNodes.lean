import ValidUsage.Proofs.Settled
import ValidUsage.Proofs.Uses

/-!
# What folding keeps of the parts of an expression

Folding leaves parts of an expression out and puts truth values and the names of extensions in place
of others. Every other part keeps what it is apart from its own parts: its operators, its names and,
but for joined conditions, the number of its parts. So whatever can be said of all parts of an
expression in these terms can be said of all parts of what folding gives.
-/

namespace ValidUsage.Expr

variable {b : Build} {names : FoldedNames} {e : Expr}

/-- A name becomes a truth value or stays. -/
theorem foldName_cases (names : FoldedNames) (p : Pos) (id : String) :
    (∃ v, foldName names p id = .ofBool p v) ∨ foldName names p id = name p id := by
  unfold foldName
  split
  · exact .inl ⟨_, rfl⟩
  · exact .inr rfl

/-- Folded conditions become a truth value, one of them, or two of them at least joined. -/
theorem foldBoolOp_cases (p : Pos) (op : BoolOp) (values : List Expr) :
    (∃ v, foldBoolOp p op values = .ofBool p v) ∨ foldBoolOp p op values ∈ values ∨
      ∃ live ⊆ values, 2 ≤ live.length ∧ foldBoolOp p op values = .boolOp p op live := by
  have hlive : (values.filter fun v => v.bool?.isNone) ⊆ values := List.filter_sublist.subset
  unfold foldBoolOp
  split
  · exact .inl ⟨_, rfl⟩
  split
  · exact .inl ⟨_, rfl⟩
  · rename_i v hv
    exact .inr (.inl (hlive (hv ▸ List.mem_singleton_self v)))
  · rename_i hnil hone
    refine .inr (.inr ⟨_, hlive, ?_, rfl⟩)
    match hvalues : values.filter fun v => v.bool?.isNone with
    | [] => exact absurd hvalues hnil
    | [v] => exact absurd hvalues (hone v)
    | _ :: _ :: _ => simp [hvalues]

/-- Expressions are folded one by one. -/
theorem foldList_eq_map (es : List Expr) : foldList b names es = es.map (fold b names) := by
  induction es with
  | nil => rfl
  | cons e es ih => rw [foldList, ih, List.map_cons]

/-- Whether a property of expressions holds of what folding puts in, and depends otherwise on
nothing but what folding keeps. -/
structure FoldsNodes (b : Build) (N : Expr → Prop) : Prop where
  /-- It holds of truth values. -/
  literal : ∀ p v, N (.ofBool p v)
  /-- It holds of the name that extensions are asked for with. -/
  asked : ∀ p, N (.name p Predicate.isExtEnabled.name)
  /-- It holds of the extensions that features stand for. -/
  extension : ∀ p feature ext, b.config.legacyAlias? feature = some ext → N (.name p ext)
  /-- It holds of conditions that are joined. -/
  boolOp : ∀ p op values, 2 ≤ values.length → N (.boolOp p op values)
  /-- It holds of unary operations. -/
  unary : ∀ p op operand, N (.unary p op operand)
  /-- It holds of calls. -/
  call : ∀ p func args, N (.call p func args)
  /-- It holds of elements. -/
  subscript : ∀ p value index, N (.subscript p value index)
  /-- It holds of choices. -/
  ifExp : ∀ p test body orelse, N (.ifExp p test body orelse)
  /-- The operands of an operation do not matter. -/
  binary : ∀ {p left op right} left' right', N (.binary p left op right) →
    N (.binary p left' op right')
  /-- The operands of a comparison do not matter, but for their number. -/
  compare : ∀ {p left ops comparators} left' comparators',
    List.length comparators' = List.length comparators →
      N (.compare p left ops comparators) → N (.compare p left' ops comparators')
  /-- What a member is of does not matter. -/
  member : ∀ {p value attr} value', N (.member p value attr) → N (.member p value' attr)

/-- Whether an expression is left alone by folding, with all its parts. -/
def isLeftAlone : Expr → Bool
  | tuple .. | list .. | slice .. => true
  | _ => false

/-- Whether an expression has a property, or is a name that folding replaces by its value. -/
def FoldsAway (names : FoldedNames) (N : Expr → Prop) (x : Expr) : Prop :=
  N x ∨ ∃ p id, x = name p id ∧ (names.get? id).isSome = true

section Nodes

variable {N : Expr → Prop}

private theorem FoldsAway.of_name? {x : Expr} (h : FoldsAway names N x) (hn : x.name? = none) :
    N x := by
  rcases h with h | ⟨p, id, rfl, -⟩
  · exact h
  · exact absurd hn nofun

variable (hN : FoldsNodes b N)

include hN

private theorem FoldsNodes.forall_mem_walk_foldName {p : Pos} {id : String}
    (h : FoldsAway names N (.name p id)) : ∀ x ∈ (foldName names p id).walk, N x := by
  intro x hx
  unfold foldName at hx
  cases hid : names.get? id with
  | some v =>
    rw [hid] at hx
    obtain rfl : x = .ofBool p v := by simpa [ofBool, walk] using hx
    exact hN.literal p v
  | none =>
    rw [hid] at hx
    obtain rfl : x = .name p id := by simpa [walk] using hx
    refine h.resolve_right ?_
    rintro ⟨q, id', heq, hsome⟩
    obtain ⟨rfl, rfl⟩ := Expr.name.inj heq
    rw [hid] at hsome
    cases hsome

/-- The negation of a condition has its parts and a negation. -/
theorem FoldsNodes.forall_mem_walk_negated (h : ∀ x ∈ e.walk, N x) :
    ∀ x ∈ e.negated.walk, N x := by
  unfold negated
  split
  · exact fun x hx => h x (List.mem_cons_of_mem _ hx)
  · exact List.forall_mem_cons.2 ⟨hN.unary _ _ _, h⟩

/-- What holds of all parts of an expression but the names that are replaced, and of all parts that
are left alone, holds of all parts of what folding gives. -/
theorem FoldsNodes.forall_mem_walk_fold_away (h : ∀ x ∈ e.walk, FoldsAway names N x)
    (hleft : ∀ x ∈ e.walk, x.isLeftAlone = true → ∀ y ∈ x.walk, N y) :
    ∀ x ∈ (e.fold b names).walk, N x := by
  have literal (p : Pos) (v : Bool) : ∀ x ∈ (ofBool p v).walk, N x :=
    List.forall_mem_singleton.2 (hN.literal p v)
  have list {es : List Expr} (ih : ∀ e ∈ es, (∀ x ∈ e.walk, FoldsAway names N x) →
      (∀ x ∈ e.walk, x.isLeftAlone = true → ∀ y ∈ x.walk, N y) →
        ∀ x ∈ (e.fold b names).walk, N x) (h : ∀ x ∈ walkList es, FoldsAway names N x)
      (hleft : ∀ x ∈ walkList es, x.isLeftAlone = true → ∀ y ∈ x.walk, N y) :
      ∀ x ∈ walkList (foldList b names es), N x := by
    intro x hx
    obtain ⟨y, hy, hx⟩ := mem_walkList.1 hx
    rw [foldList_eq_map] at hy
    obtain ⟨e, he, rfl⟩ := List.mem_map.1 hy
    exact ih e he (fun z hz => h z (mem_walkList.2 ⟨e, he, hz⟩))
      (fun z hz => hleft z (mem_walkList.2 ⟨e, he, hz⟩)) x hx
  induction e using Expr.partsInduction with
  | boolOp p op values ih =>
    simp only [walk, List.forall_mem_cons] at h hleft
    have hvalues := list ih h.2 hleft.2
    rw [fold]
    rcases foldBoolOp_cases p op (foldList b names values) with
      ⟨v, hv⟩ | hv | ⟨live, hlive, hlen, hv⟩
    · rw [hv]
      exact literal p v
    · exact fun x hx => hvalues x (mem_walkList.2 ⟨_, hv, hx⟩)
    · rw [hv, walk, List.forall_mem_cons]
      refine ⟨hN.boolOp p op live hlen, fun x hx => ?_⟩
      obtain ⟨y, hy, hx⟩ := mem_walkList.1 hx
      exact hvalues x (mem_walkList.2 ⟨y, hlive hy, hx⟩)
  | unary p op operand ih =>
    simp only [walk, List.forall_mem_cons] at h hleft
    have hoperand := ih h.2 hleft.2
    rw [fold]
    split
    · unfold foldNot
      split
      · exact literal p _
      split
      · rename_i heq
        rw [heq, walk, List.forall_mem_cons] at hoperand
        exact hoperand.2
      · exact List.forall_mem_cons.2 ⟨hN.unary _ _ _, hoperand⟩
    · exact List.forall_mem_cons.2 ⟨hN.unary _ _ _, hoperand⟩
  | compare p left ops comparators ihl ihr =>
    simp only [walk, List.forall_mem_cons, List.forall_mem_append] at h hleft
    obtain ⟨hself, hl, hr⟩ := h
    rw [fold]
    split
    · exact literal p _
    rcases foldCompare_eq p (fold b names left) ops (foldList b names comparators) with
      ⟨-, v, hv⟩ | ⟨-, hv⟩
    · rw [hv]
      exact literal p v
    · rw [hv, walk, List.forall_mem_cons, List.forall_mem_append]
      exact ⟨hN.compare _ _ (by rw [foldList_eq_map, List.length_map]) (hself.of_name? rfl),
        ihl hl hleft.2.1, list ihr hr hleft.2.2⟩
  | call p func args ihf iha =>
    simp only [walk, List.forall_mem_cons, List.forall_mem_append] at h hleft
    obtain ⟨-, hfunc, hargs⟩ := h
    rw [fold]
    split
    · rename_i ext hext
      -- what an alias is found for has a feature as its argument
      obtain ⟨feature, halias⟩ : ∃ feature, b.config.legacyAlias? feature = some ext := by
        unfold Build.aliasOfFeature? at hext
        split at hext
        · obtain ⟨feature, -, hext⟩ := Option.bind_eq_some_iff.1 hext
          split at hext
          · cases hext
          · exact ⟨feature, hext⟩
        · cases hext
      unfold foldAlias
      split
      · simp only [walk, walkList, List.append_nil, List.forall_mem_cons, List.forall_mem_append]
        exact ⟨hN.call _ _ _, hN.forall_mem_walk_foldName (.inl (hN.asked _)),
          hN.forall_mem_walk_foldName (.inl (hN.extension _ _ _ halias))⟩
      · exact literal p _
    split
    · exact literal p _
    · rw [walk, List.forall_mem_cons, List.forall_mem_append]
      exact ⟨hN.call _ _ _, ihf hfunc hleft.2.1, list iha hargs hleft.2.2⟩
  | ifExp p test body orelse iht ihb iho =>
    simp only [walk, List.forall_mem_cons, List.forall_mem_append] at h hleft
    obtain ⟨-, ht, hb, ho⟩ := h
    obtain ⟨-, hlt, hlb, hlo⟩ := hleft
    rw [fold]
    split
    · exact ihb hb hlb
    · exact iho ho hlo
    · simp only [walk, List.forall_mem_cons, List.forall_mem_append]
      exact ⟨hN.ifExp _ _ _ _, iht ht hlt, ihb hb hlb, iho ho hlo⟩
  | binary p left op right ihl ihr =>
    simp only [walk, List.forall_mem_cons, List.forall_mem_append] at h hleft
    rw [fold, walk, List.forall_mem_cons, List.forall_mem_append]
    exact ⟨hN.binary _ _ (h.1.of_name? rfl), ihl h.2.1 hleft.2.1, ihr h.2.2 hleft.2.2⟩
  | member p value attr ih =>
    simp only [walk, List.forall_mem_cons] at h hleft
    rw [fold, walk, List.forall_mem_cons]
    exact ⟨hN.member _ (h.1.of_name? rfl), ih h.2 hleft.2⟩
  | subscript p value index ihv ihi =>
    simp only [walk, List.forall_mem_cons, List.forall_mem_append] at h hleft
    rw [fold, walk, List.forall_mem_cons, List.forall_mem_append]
    exact ⟨hN.subscript _ _ _, ihv h.2.1 hleft.2.1, ihi h.2.2 hleft.2.2⟩
  | name p id => exact hN.forall_mem_walk_foldName (h _ (self_mem_walk _))
  | const p value =>
    intro x hx
    obtain rfl := List.mem_singleton.1 hx
    exact (h _ (self_mem_walk _)).of_name? rfl
  | tuple | list | slice => exact hleft _ (self_mem_walk _) rfl

/-- What holds of all parts of an expression holds of all parts of what folding gives. -/
theorem FoldsNodes.forall_mem_walk_fold (h : ∀ x ∈ e.walk, N x) :
    ∀ x ∈ (e.fold b names).walk, N x :=
  hN.forall_mem_walk_fold_away (fun x hx => .inl (h x hx))
    fun _ hx _ _ hy => h _ (walk_subset_of_mem_walk hx hy)

end Nodes

end ValidUsage.Expr
