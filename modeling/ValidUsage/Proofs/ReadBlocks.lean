import ValidUsage.Proofs.ReadShape

/-!
# What reading statements gives

The statements that are read from tokens are spelled, and the tokens that they are read from close
their brackets and have no colon directly between parentheses.
-/

namespace ValidUsage

/-- Whether the expressions of a statement are no tuples with slices. -/
def Stmt.isGathered : Stmt → Bool
  | assign _ targets value => targets.all (!·.isSpread) && !value.isSpread
  | update _ target _ value => !target.isSpread && !value.isSpread
  | ifElse _ test _ _ | whileDo _ test _ _ => !test.isSpread
  | forEach _ target iter _ _ => !target.isSpread && !iter.isSpread
  | expr _ value => !value.isSpread
  | pass _ | breakOut _ | nextRound _ => true

/-- Whether the expressions and statements of a block are formed, its slices stand in indices, and
its comments are those of comment lines. -/
structure Block.IsGiven (kept : Bool) (b : Block) : Prop where
  nodes : b.walk.all (Expr.isSound kept) = true
  statements : b.statements.all Stmt.isFormed = true
  gathered : b.statements.all Stmt.isGathered = true

namespace Block

variable {kept : Bool}

private theorem isGiven_nil : IsGiven kept [] := ⟨rfl, rfl, rfl⟩

private theorem isGiven_cons {s : Stmt} {b : Block} :
    IsGiven kept (s :: b) ↔ IsGiven kept [s] ∧ IsGiven kept b := by
  constructor
  · rintro ⟨hn, hs, hg⟩
    simp only [walk, Stmt.walkBlock, statements, Stmt.nestedBlock, List.all_append,
      Bool.and_eq_true] at hn hs hg
    exact ⟨⟨by simpa [walk, Stmt.walkBlock] using hn.1,
      by simpa [statements, Stmt.nestedBlock] using hs.1,
      by simpa [statements, Stmt.nestedBlock] using hg.1⟩, ⟨hn.2, hs.2, hg.2⟩⟩
  · rintro ⟨⟨hn, hs, hg⟩, hn', hs', hg'⟩
    simp only [walk, Stmt.walkBlock, statements, Stmt.nestedBlock, List.append_nil] at hn hs hg
    refine ⟨?_, ?_, ?_⟩
    · simp only [walk, Stmt.walkBlock, List.all_append, Bool.and_eq_true]
      exact ⟨hn, hn'⟩
    · simp only [statements, Stmt.nestedBlock, List.all_append, Bool.and_eq_true]
      exact ⟨hs, hs'⟩
    · simp only [statements, Stmt.nestedBlock, List.all_append, Bool.and_eq_true]
      exact ⟨hg, hg'⟩

private theorem isGiven_append {b b' : Block} (h : IsGiven kept b) (h' : IsGiven kept b') :
    IsGiven kept (b ++ b') := by
  induction b with
  | nil => exact h'
  | cons s b ih =>
    obtain ⟨hs, hb⟩ := isGiven_cons.1 h
    exact isGiven_cons.2 ⟨hs, ih hb⟩

/-- A block that is read is spelled when its comments stand on lines. -/
theorem IsGiven.isSpelled_of_isKept {b : Block} (h : b.IsGiven false)
    (hk : b.statements.all Stmt.isKept = true) : b.isSpelled Binary64.isCanonical = true := by
  have hn : b.walk.all (Expr.isFormed Binary64.isCanonical) = true :=
    List.all_eq_true.2 fun e he => Expr.isFormed_of_isSound (List.all_eq_true.1 h.nodes e he)
  rw [Block.isSpelled, Bool.and_eq_true, Bool.and_eq_true]
  exact ⟨⟨hn, h.statements⟩, hk⟩

/-- A block that is read with its comments kept is spelled, if its numbers with a fraction may
occur. -/
theorem IsGiven.isSpelled {b : Block} (h : b.IsGiven true) {fractions : Binary64 → Bool}
    (hf : ∀ p x, Expr.const p (.float x) ∈ b.walk → fractions x = true) :
    b.isSpelled fractions = true := by
  have sound {e : Expr} (he : e ∈ b.walk) :
      e.isFormed Binary64.isCanonical = true ∧ (Stmt.expr .none e).isKept = true := by
    have he := List.all_eq_true.1 h.nodes e he
    exact ⟨Expr.isFormed_of_isSound he, by simpa using (Bool.and_eq_true_iff.1 he).2⟩
  rw [Block.isSpelled, Bool.and_eq_true, Bool.and_eq_true]
  refine ⟨⟨List.all_eq_true.2 fun e he => ?_, h.statements⟩, List.all_eq_true.2 fun s hs => ?_⟩
  · cases e with
    | const p v =>
      cases v with
      | float x => exact hf p x he
      | _ => exact (sound he).1
    | _ => exact (sound he).1
  · cases s with
    | expr p e =>
      have hkept := (sound (Stmt.walk_subset_of_mem_nestedBlock
        (fun _ _ => Stmt.walk_subset_of_mem_nested) hs (Expr.self_mem_walk _))).2
      rw [Stmt.isKept] at hkept ⊢
      cases hc : (Stmt.expr p e).comment? with
      | none => rfl
      | some text =>
        obtain ⟨p₁, p₂, p₃, rfl⟩ := Stmt.eq_call_of_comment? hc
        simpa [Stmt.comment?] using hkept
    | _ => rfl

end Block

namespace Parser

/-- A place outside of brackets. -/
def AtTop (stack : List Bool) : Prop := stack = []

variable {kept : Bool} {ts r : List Token}

/-- Outside of brackets a colon is passed. -/
theorem Passes.colon_top {t : Token} (ht : t.is ":" = true) (r : List Token) :
    Passes AtTop (t :: r) r := by
  refine ⟨[t], rfl, fun stack hs => ?_⟩
  have h (text : String) (hne : ":" ≠ text) : t.is text = false := is_of_is ht hne
  obtain rfl : stack = [] := hs
  simp [brackets?, h "(" (by decide), h "[" (by decide), h ")" (by decide), h "]" (by decide), ht]

/-- So is layout. -/
theorem Passes.layout {t : Token} (ht : t.kind.isLayout = true) (r : List Token) :
    Passes AtTop (t :: r) r := by
  refine .plain (.of_kind ?_ ?_) r <;> intro hk <;> simp [hk, TokenKind.isLayout] at ht

section Simple

variable {p : Pos} {e e' : Expr} {es : List Expr}

private theorem walkBlock_singleton (s : Stmt) : Block.walk [s] = s.walk := by
  simp [Block.walk, Stmt.walkBlock]

/-- The statements of a single one, blocks within it included. -/
theorem statements_singleton (s : Stmt) : Block.statements [s] = s.nested := by
  simp [Block.statements, Stmt.nestedBlock]

private theorem isGiven_expr (h : IsGiven kept false e) : Block.IsGiven kept [.expr p e] := by
  refine ⟨?_, ?_, ?_⟩
  · rw [walkBlock_singleton]
    exact h.nodes
  · rw [statements_singleton]
    simp [Stmt.nested, Stmt.isFormed, h.solid rfl]
  · rw [statements_singleton]
    simp [Stmt.nested, Stmt.isGathered, h.gathered]

private theorem isGiven_assign (hes : AreGiven kept false es) (hne : es ≠ [])
    (h : IsGiven kept false e) :
    Block.IsGiven kept [.assign p es e] := by
  refine ⟨?_, ?_, ?_⟩
  · rw [walkBlock_singleton, Stmt.walk, List.all_append, all_isSound_walkList hes, h.nodes]
    rfl
  · rw [statements_singleton]
    simp [Stmt.nested, Stmt.isFormed, hne, all_not_isSlice hes, h.solid rfl]
  · rw [statements_singleton]
    simp [Stmt.nested, Stmt.isGathered, all_not_isSpread hes, h.gathered]

private theorem isGiven_update {op : BinOp} (h : IsGiven kept false e)
    (h' : IsGiven kept false e') :
    Block.IsGiven kept [.update p e op e'] := by
  refine ⟨?_, ?_, ?_⟩
  · rw [walkBlock_singleton, Stmt.walk, List.all_append, h.nodes, h'.nodes]
    rfl
  · rw [statements_singleton]
    simp [Stmt.nested, Stmt.isFormed, h.solid rfl, h'.solid rfl]
  · rw [statements_singleton]
    simp [Stmt.nested, Stmt.isGathered, h.gathered, h'.gathered]

private theorem isGiven_wordStmt? {t : Token} {s : Stmt} (h : wordStmt? t = some s) :
    t.kind = .name ∧ Block.IsGiven kept [s] := by
  unfold wordStmt? at h
  split at h
  · rename_i hk
    refine ⟨hk, ?_⟩
    split at h
    · obtain rfl := Option.some.inj h; exact ⟨rfl, rfl, rfl⟩
    split at h
    · obtain rfl := Option.some.inj h; exact ⟨rfl, rfl, rfl⟩
    split at h
    · obtain rfl := Option.some.inj h; exact ⟨rfl, rfl, rfl⟩
    · exact absurd h nofun
  · exact absurd h nofun

end Simple

/-- What reading a statement gives. -/
def IsGivenStmt (kept : Bool) (s : Stmt) : Prop := Block.IsGiven kept [s]

private theorem gives_assigned (ts : List Token) (hs : AreSound kept ts) :
    Gives AtTop (AreGiven kept false) (assigned ts) ts := by
  intro v r h hv
  rw [assigned] at hv
  split at hv
  · cases hv
    exact ⟨.refl _, (by rintro _ ⟨⟩)⟩
  · rename_i r₁ h₁ heat
    obtain ⟨t, rfl, ht⟩ := eq_cons_of_eat? heat
    have hp : Passes AtTop (t :: r₁) r₁ := .plain (.of_is ht (by decide)) r₁
    obtain ⟨⟨e, r₂, h₂⟩, he, hv⟩ := ok_of_bind hv
    obtain ⟨hp', hge⟩ := (readingGives r₁ hs.tail).sequence .values _ _ _ he
    have hp := hp.trans (Passes.mono hp')
    obtain ⟨⟨es, r₃, h₃⟩, hes, hv⟩ := ok_of_bind hv
    obtain ⟨hp', hges⟩ := gives_assigned r₂ (hp.areSound hs) _ _ _ hes
    cases hv
    exact ⟨hp.trans hp', List.forall_mem_cons.2 ⟨hge, hges⟩⟩
termination_by ts.length

private theorem passes_updateOp {op : BinOp} (h : updateOp? ts = some op) :
    Passes AtTop ts ts.tail := by
  have hat : at? (op.spelling ++ "=") ts = true := by simpa using List.find?_some h
  cases ts with
  | nil => simp [at?, peek, Token.is] at hat
  | cons t r =>
    have ht : t.is (op.spelling ++ "=") = true := hat
    exact .plain (.of_is ht (by cases op <;> decide)) r

private theorem gives_simpleStmt (hs : AreSound kept ts) :
    Gives AtTop (IsGivenStmt kept) (simpleStmt ts) ts := by
  intro v r h hv
  cases ts with
  | nil =>
    rw [simpleStmt] at hv
    cases hv
  | cons t ts =>
    rw [simpleStmt] at hv
    split at hv
    · rename_i s hword
      obtain ⟨hk, hgs⟩ := isGiven_wordStmt? hword
      cases hv
      exact ⟨.plain (.of_isWord (hs.words t List.mem_cons_self hk)) _, hgs⟩
    · obtain ⟨⟨first, r₁, h₁⟩, hfirst, hv⟩ := ok_of_bind hv
      obtain ⟨hp, hgf⟩ := (readingGives _ hs).sequence .values _ _ _ hfirst
      have hp : Passes AtTop (t :: ts) r₁ := Passes.mono hp
      obtain ⟨⟨others, r₂, h₂⟩, hothers, hv⟩ := ok_of_bind hv
      obtain ⟨hp', hgo⟩ := gives_assigned r₁ (hp.areSound hs) _ _ _ hothers
      dsimp only at hv
      split at hv
      · rename_i value targets hrev
        cases hv
        have hgo : AreGiven kept false (value :: targets) := fun e he =>
          hgo e (List.mem_reverse.1 (hrev ▸ he))
        obtain ⟨hgv, hgt⟩ := List.forall_mem_cons.1 hgo
        refine ⟨hp.trans hp', isGiven_assign ?_ (List.cons_ne_nil _ _) hgv⟩
        exact List.forall_mem_cons.2 ⟨hgf, fun e he => hgt e (List.mem_reverse.1 he)⟩
      · split at hv
        · cases hv
          exact ⟨hp, isGiven_expr hgf⟩
        · rename_i op hop
          have hp := hp.trans (passes_updateOp hop)
          obtain ⟨⟨value, r₃, h₃⟩, hvalue, hv⟩ := ok_of_bind hv
          obtain ⟨hp', hgv⟩ := (readingGives _ (hp.areSound hs)).sequence .values _ _ _ hvalue
          cases hv
          exact ⟨hp.trans (Passes.mono hp'), isGiven_update hgf hgv⟩

private theorem gives_simpleRest (ts : List Token) (hs : AreSound kept ts) :
    Gives AtTop (Block.IsGiven kept) (simpleRest ts) ts := by
  intro v r h hv
  rw [simpleRest] at hv
  split at hv
  · cases hv
    exact ⟨.refl _, Block.isGiven_nil⟩
  · rename_i r₁ h₁ heat
    obtain ⟨t, rfl, ht⟩ := eq_cons_of_eat? heat
    have hp : Passes AtTop (t :: r₁) r₁ := .plain (.of_is ht (by decide)) r₁
    split at hv
    · cases hv
      exact ⟨hp, Block.isGiven_nil⟩
    · obtain ⟨⟨s, r₂, h₂⟩, hstmt, hv⟩ := ok_of_bind hv
      obtain ⟨hp', hgs⟩ := gives_simpleStmt hs.tail _ _ _ hstmt
      have hp := hp.trans hp'
      obtain ⟨⟨ss, r₃, h₃⟩, hss, hv⟩ := ok_of_bind hv
      obtain ⟨hp', hgss⟩ := gives_simpleRest r₂ (hp.areSound hs) _ _ _ hss
      cases hv
      exact ⟨hp.trans hp', Block.isGiven_cons.2 ⟨hgs, hgss⟩⟩
termination_by ts.length

private theorem gives_simpleStmts (hs : AreSound kept ts) :
    Gives AtTop (Block.IsGiven kept) (simpleStmts ts) ts := by
  intro v r h hv
  rw [simpleStmts] at hv
  obtain ⟨⟨s, r₁, h₁⟩, hstmt, hv⟩ := ok_of_bind hv
  obtain ⟨hp, hgs⟩ := gives_simpleStmt hs _ _ _ hstmt
  obtain ⟨⟨ss, r₂, h₂⟩, hss, hv⟩ := ok_of_bind hv
  obtain ⟨hp', hgss⟩ := gives_simpleRest r₁ (hp.areSound hs) _ _ _ hss
  have hp := hp.trans hp'
  dsimp only at hv
  split at hv
  · split at hv
    · rename_i hk
      cases hv
      exact ⟨hp.trans (.layout (by rw [hk]; rfl) _), Block.isGiven_cons.2 ⟨hgs, hgss⟩⟩
    · exact absurd hv nofun
  · exact absurd hv nofun

/-! ## Blocks -/

/-- What reading tokens as statements gives. -/
structure StatementsGive (kept : Bool) (ts : List Token) : Prop where
  statements (inside : Bool) : Gives AtTop (Block.IsGiven kept) (statements inside ts) ts
  statement : Gives AtTop (Block.IsGiven kept) (statement ts) ts
  ifStmt (p : Pos) : Gives AtTop (IsGivenStmt kept) (ifStmt p ts) ts
  elseBlock : Gives AtTop (Block.IsGiven kept) (elseBlock ts) ts
  block : Gives AtTop (Block.IsGiven kept) (block ts) ts

section Compound

variable {p : Pos} {cond target iter : Expr} {body orelse : Block}

private theorem isGiven_ifElse (hc : IsGiven kept false cond) (hb : body.IsGiven kept)
    (ho : orelse.IsGiven kept) : IsGivenStmt kept (.ifElse p cond body orelse) := by
  obtain ⟨hn, hs, hg⟩ := hb
  obtain ⟨hn', hs', hg'⟩ := ho
  simp only [Block.walk, Block.statements] at hn hn' hs hs' hg hg'
  refine ⟨?_, ?_, ?_⟩
  · simp [walkBlock_singleton, Stmt.walk, hc.nodes, hn, hn']
  · simp [statements_singleton, Stmt.nested, Stmt.isFormed, hc.solid rfl, hs, hs']
  · simp [statements_singleton, Stmt.nested, Stmt.isGathered, hc.gathered, hg, hg']

private theorem isGiven_whileDo (hc : IsGiven kept false cond) (hb : body.IsGiven kept)
    (ho : orelse.IsGiven kept) : IsGivenStmt kept (.whileDo p cond body orelse) := by
  obtain ⟨hn, hs, hg⟩ := hb
  obtain ⟨hn', hs', hg'⟩ := ho
  simp only [Block.walk, Block.statements] at hn hn' hs hs' hg hg'
  refine ⟨?_, ?_, ?_⟩
  · simp [walkBlock_singleton, Stmt.walk, hc.nodes, hn, hn']
  · simp [statements_singleton, Stmt.nested, Stmt.isFormed, hc.solid rfl, hs, hs']
  · simp [statements_singleton, Stmt.nested, Stmt.isGathered, hc.gathered, hg, hg']

private theorem isGiven_forEach (ht : IsGiven kept false target) (hi : IsGiven kept false iter)
    (hb : body.IsGiven kept) (ho : orelse.IsGiven kept) :
    IsGivenStmt kept (.forEach p target iter body orelse) := by
  obtain ⟨hn, hs, hg⟩ := hb
  obtain ⟨hn', hs', hg'⟩ := ho
  simp only [Block.walk, Block.statements] at hn hn' hs hs' hg hg'
  refine ⟨?_, ?_, ?_⟩
  · simp [walkBlock_singleton, Stmt.walk, ht.nodes, hi.nodes, hn, hn']
  · simp [statements_singleton, Stmt.nested, Stmt.isFormed, ht.solid rfl, hi.solid rfl, hs, hs']
  · simp [statements_singleton, Stmt.nested, Stmt.isGathered, ht.gathered, hi.gathered, hg, hg']

end Compound

private theorem gives_statements (hs : AreSound kept ts) (inside : Bool)
    (hst : Gives AtTop (Block.IsGiven kept) (statement ts) ts)
    (ih : ∀ r, r.length < ts.length → AreSound kept r → StatementsGive kept r) :
    Gives AtTop (Block.IsGiven kept) (statements inside ts) ts := by
  intro v r h hv
  cases ts with
  | nil =>
    rw [statements] at hv
    cases hv
    exact ⟨.refl _, Block.isGiven_nil⟩
  | cons t ts =>
    rw [statements] at hv
    split at hv
    · cases hv
      exact ⟨.refl _, Block.isGiven_nil⟩
    · obtain ⟨⟨ss, r₁, h₁⟩, hss, hv⟩ := ok_of_bind hv
      obtain ⟨hp, hgs⟩ := hst _ _ _ hss
      obtain ⟨⟨ss', r₂, h₂⟩, hss', hv⟩ := ok_of_bind hv
      obtain ⟨hp', hgs'⟩ := (ih r₁ h₁ (hp.areSound hs)).statements inside _ _ _ hss'
      cases hv
      exact ⟨hp.trans hp', Block.isGiven_append hgs hgs'⟩

/-- Statements are read up to what ends them. -/
theorem ends_of_statements {inside : Bool} (ts : List Token) {v : Block} {r : List Token}
    {h : r.length < ts.length + 1} (hv : statements inside ts = .ok ⟨v, r, h⟩) :
    ∀ t ∈ r.head?, endsBlock inside t = true := by
  cases ts with
  | nil =>
    rw [statements] at hv
    cases hv
    rintro _ ⟨⟩
  | cons t ts =>
    rw [statements] at hv
    split at hv
    · rename_i hends
      cases hv
      intro t' ht'
      obtain rfl : t = t' := by simpa using ht'
      exact hends
    · obtain ⟨⟨ss, r₁, h₁⟩, hss, hv⟩ := ok_of_bind hv
      obtain ⟨⟨ss', r₂, h₂⟩, hss', hv⟩ := ok_of_bind hv
      cases hv
      exact ends_of_statements r₁ hss'
termination_by ts.length

private theorem passes_closeBlock (h : ∀ t ∈ r.head?, endsBlock true t = true) :
    Passes AtTop r (closeBlock r).1 := by
  cases r with
  | nil => exact .refl _
  | cons t r =>
    simp only [closeBlock]
    split
    · exact .refl _
    · exact .layout (isLayout_of_endsBlock (h t rfl)) r

private theorem gives_block (hs : AreSound kept ts)
    (ih : ∀ r, r.length < ts.length → AreSound kept r → StatementsGive kept r) :
    Gives AtTop (Block.IsGiven kept) (block ts) ts := by
  intro v r h hv
  cases ts with
  | nil => rw [block.eq_def] at hv; exact absurd hv nofun
  | cons t ts =>
    rw [block.eq_def] at hv
    dsimp only at hv
    split at hv
    · rename_i hk
      cases ts with
      | nil => exact absurd hv nofun
      | cons t' ts =>
        dsimp only at hv
        split at hv
        · rename_i hk'
          have hp : Passes AtTop (t :: t' :: ts) ts :=
            (Passes.layout (by rw [hk]; rfl) _).trans (.layout (by rw [hk']; rfl) _)
          obtain ⟨⟨body, r₁, h₁⟩, hbody, hv⟩ := ok_of_bind hv
          have hlt : ts.length < (t :: t' :: ts).length := by
            simp only [List.length_cons]
            omega
          obtain ⟨hp', hgb⟩ := (ih ts hlt (hp.areSound hs)).statements true _ _ _ hbody
          cases hv
          exact ⟨(hp.trans hp').trans (passes_closeBlock (ends_of_statements ts hbody)), hgb⟩
        · exact absurd hv nofun
    · exact gives_simpleStmts hs _ _ _ hv

private theorem gives_elseBlock (hs : AreSound kept ts)
    (ih : ∀ r, r.length < ts.length → AreSound kept r → StatementsGive kept r) :
    Gives AtTop (Block.IsGiven kept) (elseBlock ts) ts := by
  intro v r h hv
  rw [elseBlock] at hv
  split at hv
  · cases hv
    exact ⟨.refl _, Block.isGiven_nil⟩
  · rename_i r₀ h₀ heat
    obtain ⟨t, rfl, ht⟩ := eq_cons_of_eat? heat
    obtain ⟨⟨r₁, h₁⟩, hcolon, hv⟩ := ok_of_bind hv
    obtain ⟨t', rfl, ht'⟩ := eq_cons_of_expect hcolon
    have hp : Passes AtTop (t :: t' :: r₁) r₁ :=
      (Passes.plain (.of_is ht (by decide)) _).trans (.colon_top ht' r₁)
    obtain ⟨⟨body, r₂, h₂⟩, hbody, hv⟩ := ok_of_bind hv
    obtain ⟨hp', hgb⟩ := (ih r₁ (Nat.lt_trans h₁ h₀) (hp.areSound hs)).block _ _ _ hbody
    cases hv
    exact ⟨hp.trans hp', hgb⟩

private theorem gives_ifStmt (hs : AreSound kept ts) (p : Pos)
    (ih : ∀ r, r.length < ts.length → AreSound kept r → StatementsGive kept r) :
    Gives AtTop (IsGivenStmt kept) (ifStmt p ts) ts := by
  intro v r h hv
  rw [ifStmt] at hv
  obtain ⟨⟨cond, r₁, h₁⟩, hcond, hv⟩ := ok_of_bind hv
  obtain ⟨hp, hgc⟩ := (readingGives ts hs).test _ _ _ hcond
  obtain ⟨⟨r₂, h₂⟩, hcolon, hv⟩ := ok_of_bind hv
  obtain ⟨t, rfl, ht⟩ := eq_cons_of_expect hcolon
  have hp : Passes AtTop ts r₂ := (Passes.mono hp).trans (.colon_top ht r₂)
  obtain ⟨⟨body, r₃, h₃⟩, hbody, hv⟩ := ok_of_bind hv
  have hlt : r₂.length < ts.length := Nat.lt_trans h₂ h₁
  obtain ⟨hp', hgb⟩ := (ih r₂ hlt (hp.areSound hs)).block _ _ _ hbody
  have hp := hp.trans hp'
  have hlt : r₃.length < ts.length := Nat.lt_trans h₃ hlt
  dsimp only at hv
  split at hv
  · rename_i r₄ h₄ heat
    obtain ⟨t', rfl, ht'⟩ := eq_cons_of_eat? heat
    have hp := hp.trans (.plain (.of_is ht' (by decide)) r₄)
    obtain ⟨⟨s, r₅, h₅⟩, hstmt, hv⟩ := ok_of_bind hv
    obtain ⟨hp', hgs⟩ := (ih r₄ (Nat.lt_trans h₄ hlt) (hp.areSound hs)).ifStmt _ _ _ _ hstmt
    cases hv
    exact ⟨hp.trans hp', isGiven_ifElse hgc hgb hgs⟩
  · obtain ⟨⟨orelse, r₄, h₄⟩, horelse, hv⟩ := ok_of_bind hv
    obtain ⟨hp', hgo⟩ := (ih r₃ hlt (hp.areSound hs)).elseBlock _ _ _ horelse
    cases hv
    exact ⟨hp.trans hp', isGiven_ifElse hgc hgb hgo⟩

private theorem gives_statement (hs : AreSound kept ts)
    (ih : ∀ r, r.length < ts.length → AreSound kept r → StatementsGive kept r) :
    Gives AtTop (Block.IsGiven kept) (statement ts) ts := by
  intro v r h hv
  cases ts with
  | nil => rw [statement] at hv; cases hv
  | cons t ts =>
    have hlt := length_lt_cons t ts
    have word (hk : t.kind = .name) : Passes AtTop (t :: ts) ts :=
      .plain (.of_isWord (hs.words t List.mem_cons_self hk)) ts
    rw [statement] at hv
    split at hv
    · cases hv
    split at hv
    · rename_i hif
      obtain ⟨⟨s, r₁, h₁⟩, hstmt, hv⟩ := ok_of_bind hv
      obtain ⟨hp, hgs⟩ := (ih ts hlt hs.tail).ifStmt _ _ _ _ hstmt
      cases hv
      exact ⟨(word hif.1).trans hp, hgs⟩
    split at hv
    · rename_i hfor
      have hp := word hfor.1
      obtain ⟨⟨target, r₁, h₁⟩, htarget, hv⟩ := ok_of_bind hv
      obtain ⟨hp', hgt⟩ := (readingGives ts hs.tail).sequence .targets _ _ _ htarget
      have hp := hp.trans (Passes.mono hp')
      obtain ⟨⟨r₂, h₂⟩, hin, hv⟩ := ok_of_bind hv
      obtain ⟨t₁, rfl, ht₁⟩ := eq_cons_of_expect hin
      have hp := hp.trans (.plain (.of_is ht₁ (by decide)) r₂)
      obtain ⟨⟨iter, r₃, h₃⟩, hiter, hv⟩ := ok_of_bind hv
      obtain ⟨hp', hgi⟩ := (readingGives r₂ (hp.areSound hs)).sequence .values _ _ _ hiter
      have hp := hp.trans (Passes.mono hp')
      obtain ⟨⟨r₄, h₄⟩, hcolon, hv⟩ := ok_of_bind hv
      obtain ⟨t₂, rfl, ht₂⟩ := eq_cons_of_expect hcolon
      have hp := hp.trans (.colon_top ht₂ r₄)
      have hlt : r₄.length < (t :: ts).length :=
        Nat.lt_trans h₄ (Nat.lt_trans h₃ (Nat.lt_trans h₂ (lt_length_cons t h₁)))
      obtain ⟨⟨body, r₅, h₅⟩, hbody, hv⟩ := ok_of_bind hv
      obtain ⟨hp', hgb⟩ := (ih r₄ hlt (hp.areSound hs)).block _ _ _ hbody
      have hp := hp.trans hp'
      obtain ⟨⟨orelse, r₆, h₆⟩, horelse, hv⟩ := ok_of_bind hv
      obtain ⟨hp', hgo⟩ := (ih r₅ (Nat.lt_trans h₅ hlt) (hp.areSound hs)).elseBlock _ _ _ horelse
      cases hv
      exact ⟨hp.trans hp', isGiven_forEach hgt hgi hgb hgo⟩
    split at hv
    · rename_i hwhile
      have hp := word hwhile.1
      obtain ⟨⟨cond, r₁, h₁⟩, hcond, hv⟩ := ok_of_bind hv
      obtain ⟨hp', hgc⟩ := (readingGives ts hs.tail).test _ _ _ hcond
      have hp := hp.trans (Passes.mono hp')
      obtain ⟨⟨r₂, h₂⟩, hcolon, hv⟩ := ok_of_bind hv
      obtain ⟨t₁, rfl, ht₁⟩ := eq_cons_of_expect hcolon
      have hp := hp.trans (.colon_top ht₁ r₂)
      have hlt : r₂.length < (t :: ts).length := Nat.lt_trans h₂ (lt_length_cons t h₁)
      obtain ⟨⟨body, r₃, h₃⟩, hbody, hv⟩ := ok_of_bind hv
      obtain ⟨hp', hgb⟩ := (ih r₂ hlt (hp.areSound hs)).block _ _ _ hbody
      have hp := hp.trans hp'
      obtain ⟨⟨orelse, r₄, h₄⟩, horelse, hv⟩ := ok_of_bind hv
      obtain ⟨hp', hgo⟩ := (ih r₃ (Nat.lt_trans h₃ hlt) (hp.areSound hs)).elseBlock _ _ _ horelse
      cases hv
      exact ⟨hp.trans hp', isGiven_whileDo hgc hgb hgo⟩
    · exact gives_simpleStmts hs _ _ _ hv

/-- What is said of reading statements holds of all sound tokens. -/
theorem statementsGive (ts : List Token) (hs : AreSound kept ts) : StatementsGive kept ts := by
  induction hn : ts.length using Nat.strongRecOn generalizing ts with
  | _ n ih =>
    have ih (r : List Token) (hr : r.length < ts.length) (hs : AreSound kept r) :
        StatementsGive kept r :=
      ih r.length (hn ▸ hr) r hs rfl
    exact {
      statements := fun inside => gives_statements hs inside (gives_statement hs ih) ih
      statement := gives_statement hs ih
      ifStmt := fun p => gives_ifStmt hs p ih
      elseBlock := gives_elseBlock hs ih
      block := gives_block hs ih }

/-- The block that tokens write is as reading gives it, and up to the end of the text the tokens
close their brackets and have no colon directly between parentheses. -/
theorem ofTokens_gives {b : Block} (hs : AreSound kept ts) (h : ofTokens ts = .ok b) :
    b.IsGiven kept ∧ ∃ pre r, ts = pre ++ r ∧ bracketsAfter? [] pre = some [] ∧
      ∀ t ∈ r.head?, t.kind = .endMarker := by
  obtain ⟨⟨v, r, h'⟩, hv, h⟩ := ok_of_bind h
  obtain ⟨⟨pre, he, hp⟩, hg⟩ := (statementsGive ts hs).statements false _ _ _ hv
  cases h
  refine ⟨hg, pre, r, he, hp [] rfl, fun t ht => ?_⟩
  simpa [endsBlock] using ends_of_statements ts hv t ht

end Parser
end ValidUsage
