import ValidUsage.Proofs.Brackets
import ValidUsage.Proofs.KeepComments

/-!
# What a check of a layout shows

A statement with an empty block is not read from its layout, and a loop whose target is only read
between parentheses is read as another loop, if at all. So a block that is read from its layout as
the same program can be written, and then it is read with its comments as they are.
-/

namespace ValidUsage

open ValidUsage.Parser

namespace Expr

/-- What programs are compared by. -/
def core (e : Expr) : Expr := e.bareBy Constant.unsigned

private theorem bareListBy_eq_map (f : Constant → Constant) (es : List Expr) :
    bareListBy f es = es.map (bareBy f) := by
  induction es with
  | nil => rfl
  | cons e es ih => rw [bareListBy, ih, List.map_cons]

private theorem bareOptionBy_eq_map (f : Constant → Constant) (o : Option Expr) :
    bareOptionBy f o = o.map (bareBy f) := by
  cases o <;> rfl

@[simp] theorem core_unplaced (e : Expr) : e.unplaced.core = e.core := by
  have map {es : List Expr} (ih : ∀ e ∈ es, e.unplaced.core = e.core) :
      (es.map unplaced).map (bareBy Constant.unsigned) = es.map (bareBy Constant.unsigned) := by
    rw [List.map_map]
    exact List.map_congr_left ih
  have bound {o : Option Expr} (ih : ∀ e ∈ o, e.unplaced.core = e.core) :
      o.map (bareBy Constant.unsigned ∘ unplaced) = o.map (bareBy Constant.unsigned) :=
    Option.map_congr ih
  induction e using partsInduction with
  | boolOp p op values ih => simpa [core, bareBy, bareListBy_eq_map] using map ih
  | binary p left op right ihl ihr => simpa [core, bareBy] using ⟨ihl, ihr⟩
  | unary p op operand ih => simpa [core, bareBy] using ih
  | compare p left ops comparators ihl ih =>
    simpa [core, bareBy, bareListBy_eq_map] using ⟨ihl, ih⟩
  | call p func args ihf ih => simpa [core, bareBy, bareListBy_eq_map] using ⟨ihf, ih⟩
  | member p value attr ih => simpa [core, bareBy] using ih
  | subscript p value index ihv ihi => simpa [core, bareBy] using ⟨ihv, ihi⟩
  | ifExp p test body orelse iht ihb iho => simpa [core, bareBy] using ⟨iht, ihb, iho⟩
  | name | const => rfl
  | tuple p elts ih => simpa [core, bareBy, bareListBy_eq_map] using map ih
  | list p elts ih => simpa [core, bareBy, bareListBy_eq_map] using map ih
  | slice p lower upper step ihl ihu ihs =>
    simpa [core, bareBy, bareOptionBy_eq_map] using ⟨bound ihl, bound ihu, bound ihs⟩

private theorem core_eq_of_unplaced {e e' : Expr} (h : e.unplaced = e'.unplaced) :
    e.core = e'.core := by
  rw [← core_unplaced e, h, core_unplaced]

end Expr

namespace Parser

open ValidUsage.Expr (unplaced)

variable {fractions : Binary64 → Bool} {ts r : List Token} {t : Token} {e : Expr}

/-! ## Targets -/

/-- A word at which no operand starts is read by no reader of operands. -/
theorem reader_error {t : Token} (hk : t.kind = .name) (hw : isKeyword t.text = true)
    (hc : t.text ∉ ["True", "False", "None"]) (r : List Token) {k : Nat} (h : k ≤ 8) :
    ∃ x, reader k (t :: r) = .error x := by
  have hatom : ∃ x, atom (t :: r) = .error x := by
    simp only [List.mem_cons, List.not_mem_nil, or_false, not_or] at hc
    rw [atom]
    simp [hk, hw, hc, invalid, fail]
  have level (l : Level) (ih : ∃ x, reader (l.rank + 2) (t :: r) = .error x) :
      ∃ x, reader (l.rank + 3) (t :: r) = .error x := by
    obtain ⟨x, hx⟩ := ih
    exact ⟨x, by rw [← binary_eq, binary, tighter_eq, hx]; rfl⟩
  induction k with
  | zero => exact hatom
  | succ k ih =>
    obtain ⟨x, hx⟩ := ih (by omega)
    rcases k with _ | _ | _ | _ | _ | _ | _ | _ | k
    · exact ⟨x, by rw [reader, primary, show atom (t :: r) = .error x from hx]; rfl⟩
    · have hs : sign? t = none := by simp [sign?, hk]
      exact ⟨x, by rw [reader, factor, hs, power, show primary (t :: r) = .error x from hx]; rfl⟩
    · exact level .product ⟨x, hx⟩
    · exact level .sum ⟨x, hx⟩
    · exact level .shift ⟨x, hx⟩
    · exact level .bitAnd ⟨x, hx⟩
    · exact level .bitXor ⟨x, hx⟩
    · exact level .bitOr ⟨x, hx⟩
    · omega

private theorem readsAt_wrapped (hf : ∀ x, fractions x = true → x.IsWritten)
    (h : e.isOperand fractions = true) {w : Bool} {k : Nat} (hk : w = false → e.rank ≤ k)
    (hk' : k ≤ 13) {n : Nat} (hts : Spells ts (Expr.wrapped w n e.layout)) :
    ReadsAt k ts e.unplaced := by
  simp only [Expr.isOperand, Bool.and_eq_true, Bool.not_eq_true'] at h
  exact ((Expr.readsBack_of_isWritable hf h.2).readable h.1).wrapped h.1 hk hk' hts

private theorem core_of_reads {n : Nat} {x : Parse Expr n} (h : Reads unplaced x e.unplaced r)
    {a : Expr}
    {r' : List Token} {h' : r'.length < n} (hx : x = .ok ⟨a, r', h'⟩) : a.core = e.core := by
  obtain ⟨a', _, ha, he⟩ := h
  rw [ha] at hx
  cases hx
  exact Expr.core_eq_of_unplaced he

private theorem stops_comparisons {op : CmpOp} {ops : List CmpOp} {e : Expr} {es : List Expr}
    {n : Nat}
    (h : Spells ts (Expr.comparisons (op :: ops) (e :: es) n)) (r : List Token) :
    Stops 8 (ts ++ r) := by
  rw [Expr.comparisons] at h
  obtain ⟨_, _, hst, _⟩ := Expr.cmpOp?_of_spells (spells_silent rfl h)
  exact hst r

/-- Before `in`, an expression that is no target is read as less than it is, if at all. -/
theorem sizeOf_operand (hf : ∀ x, fractions x = true → x.IsWritten)
    (h : e.isOperand fractions = true) (hc : e.isChoice = false) {n : Nat}
    (hts : Spells ts (e.layout n)) (hr : Stops 8 r) {us : List Token} (hus : us = ts ++ r)
    {a : Expr} {r' : List Token} {h' : r'.length < us.length}
    (hread : binary .bitOr us = .ok ⟨a, r', h'⟩) :
    sizeOf a.core ≤ sizeOf e.core ∧ (e.isLoopTarget = false → sizeOf a.core < sizeOf e.core) := by
  cases htarget : e.isLoopTarget with
  | true =>
    subst hus
    have he := core_of_reads ((readsAt_of_isLoopTarget hf h htarget hts).read hr) hread
    exact ⟨Nat.le_of_eq (by rw [he]), (by rintro ⟨⟩)⟩
  | false =>
    suffices hlt : sizeOf a.core < sizeOf e.core from ⟨Nat.le_of_lt hlt, fun _ => hlt⟩
    cases e with
    | unary p op operand =>
      obtain rfl : op = .not := by simpa [Expr.isLoopTarget] using htarget
      rw [Expr.layout] at hts
      obtain ⟨t, ts', rfl, hk, ht, -⟩ := spells_token rfl hts
      subst hus
      obtain ⟨x, hx⟩ := reader_error hk (by rw [ht]; decide) (by rw [ht]; decide) (ts' ++ r)
        (k := 8) (Nat.le_refl 8)
      cases hread.symm.trans hx
    | compare p left ops comparators =>
      simp only [Expr.isOperand, Expr.isWritable, Bool.and_eq_true, Bool.not_eq_true',
        List.isEmpty_eq_false_iff, beq_iff_eq] at h
      obtain ⟨-, ⟨⟨hne, hlen⟩, hsl, hl⟩, -⟩ := h
      obtain ⟨op, ops, rfl⟩ := List.exists_cons_of_ne_nil hne
      obtain ⟨e, es, rfl⟩ := List.exists_cons_of_length_pos (l := comparators) (by
        rw [← hlen]
        exact Nat.succ_pos _)
      rw [Expr.layout] at hts
      obtain ⟨ts₁, ts₂, rfl, hts₁, hts₂⟩ := spells_append hts
      have hleft := readsAt_wrapped hf (e := left) (by simp [Expr.isOperand, hsl, hl])
        Expr.rank_le_of_wrapsCompared (by decide) hts₁
      rw [List.append_assoc] at hus
      subst hus
      have he := core_of_reads (hleft.read (stops_comparisons hts₂ r)) hread
      rw [he]
      simp [Expr.core, Expr.bareBy]
      omega
    | ifExp => cases hc
    | _ => cases htarget

private theorem isLoopTarget_of_core (hf : ∀ x, fractions x = true → x.IsWritten)
    (h : e.isOperand fractions = true) {n : Nat} (hts : Spells ts (e.layout n)) (hr : Stops 8 r)
    {us : List Token} (hus : us = ts ++ r) {a : Expr} {r' : List Token}
    {h' : r'.length < us.length} (hread : sequence .targets us = .ok ⟨a, r', h'⟩)
    (he : a.core = e.core) :
    e.isLoopTarget = true := by
  rw [← Bool.not_eq_false]
  intro htarget
  -- what stands before the first comma is less than the whole
  have less {a : Expr} {r' : List Token} {h' : r'.length < us.length}
      (hread : binary .bitOr us = .ok ⟨a, r', h'⟩) : sizeOf a.core < sizeOf e.core := by
    cases hc : e.isChoice with
    | false => exact (sizeOf_operand hf h hc hts hr hus hread).2 htarget
    | true =>
      cases e with
      | ifExp p test body orelse =>
        simp only [Expr.isOperand, Expr.isWritable, Bool.and_eq_true, Bool.not_eq_true'] at h
        obtain ⟨-, ⟨-, hsb, hb⟩, -⟩ := h
        have hbody : body.isOperand fractions = true := by simp [Expr.isOperand, hsb, hb]
        have hlt : sizeOf body.core < sizeOf (Expr.ifExp p test body orelse).core := by
          simp [Expr.core, Expr.bareBy]
          omega
        rw [Expr.layout] at hts
        obtain ⟨ts₁, ts₂, rfl, hts₁, hts₂⟩ := spells_append hts
        obtain ⟨t, ts₃, rfl, hk, ht, -⟩ := spells_token rfl (spells_silent rfl hts₂)
        have hstop : Stops 8 (t :: ts₃ ++ r) := .cons (by rw [Expr.jointOf_name hk ht]; decide)
        rw [List.append_assoc] at hus
        refine Nat.lt_of_le_of_lt ?_ hlt
        cases hw : body.isChoice with
        | false =>
          rw [hw] at hts₁
          exact (sizeOf_operand hf hbody hw hts₁ hstop hus hread).1
        | true =>
          have hin := readsAt_wrapped hf hbody (k := 8) (by simp [hw]) (by decide) hts₁
          subst hus
          exact Nat.le_of_eq (by rw [core_of_reads (hin.read hstop) hread])
      | _ => cases hc
  rw [sequence] at hread
  obtain ⟨⟨first, r₁, h₁⟩, hfirst, hread⟩ := ok_of_bind hread
  rw [item] at hfirst
  dsimp only at hread
  split at hread
  · obtain ⟨⟨others, r₂, h₂⟩, -, hread⟩ := ok_of_bind hread
    cases hread
    cases e with
    | tuple => cases htarget
    | _ => cases he
  · cases hread
    exact absurd (he ▸ less hfirst) (Nat.lt_irrefl _)

end Parser

/-! ## Statements -/

/-- What programs are compared by; it has no comments. -/
def Block.core (b : Block) : Block := Stmt.bareBlockBy Constant.unsigned b

namespace Stmt

/-- What programs are compared by. -/
def core (s : Stmt) : Stmt := s.bareBy Constant.unsigned

private theorem core_cons {s : Stmt} (h : s.isComment = false) (ss : Block) :
    Block.core (s :: ss) = s.core :: Block.core ss := by
  rw [Block.core, bareBlockBy, h]
  rfl

private theorem core_append (b b' : Block) :
    Block.core (b ++ b') = Block.core b ++ Block.core b' := by
  induction b with
  | nil => rfl
  | cons s ss ih =>
    simp only [Block.core, List.cons_append, bareBlockBy] at ih ⊢
    split <;> simp [ih]

private theorem core_unplacedBlock_of {b : Block} (ih : ∀ s ∈ b, s.unplaced.core = s.core) :
    Block.core (unplacedBlock b) = Block.core b := by
  induction b with
  | nil => rfl
  | cons s ss ihs =>
    have hs := ih s List.mem_cons_self
    have hss := ihs fun s h => ih s (List.mem_cons_of_mem _ h)
    simp only [Block.core, unplacedBlock, bareBlockBy, isComment_unplaced] at hss ⊢
    rw [hss]
    split
    · rfl
    · exact congrArg (· :: _) hs

@[simp] theorem core_unplaced (s : Stmt) : s.unplaced.core = s.core := by
  induction s using partsInduction with
  | assign p targets value =>
    simp only [unplaced, core, bareBy, Expr.bareListBy_eq_map, List.map_map, assign.injEq, true_and]
    exact ⟨List.map_congr_left fun e _ => e.core_unplaced, value.core_unplaced⟩
  | update p target op value =>
    simp only [unplaced, core, bareBy, update.injEq, true_and]
    exact ⟨target.core_unplaced, value.core_unplaced⟩
  | ifElse p test body orelse ihb iho =>
    simp only [unplaced, core, bareBy, ifElse.injEq, true_and]
    exact ⟨test.core_unplaced, core_unplacedBlock_of ihb, core_unplacedBlock_of iho⟩
  | forEach p target iter body orelse ihb iho =>
    simp only [unplaced, core, bareBy, forEach.injEq, true_and]
    exact ⟨target.core_unplaced, iter.core_unplaced, core_unplacedBlock_of ihb,
      core_unplacedBlock_of iho⟩
  | whileDo p test body orelse ihb iho =>
    simp only [unplaced, core, bareBy, whileDo.injEq, true_and]
    exact ⟨test.core_unplaced, core_unplacedBlock_of ihb, core_unplacedBlock_of iho⟩
  | expr p value => exact congrArg (expr .none) value.core_unplaced
  | pass | breakOut | nextRound => rfl

private theorem core_unplacedBlock (b : Block) : Block.core (unplacedBlock b) = Block.core b :=
  core_unplacedBlock_of fun s _ => s.core_unplaced

@[simp] theorem isPacked_ifElse (p : Pos) (test : Expr) (body orelse : Block) :
    (ifElse p test body orelse).isPacked =
      (test.isPacked && (List.all body isPacked && List.all orelse isPacked)) := by
  simp only [isPacked, walk, List.all_append, walkBlock_all_not_isSpread]
  rfl

@[simp] theorem isPacked_whileDo (p : Pos) (test : Expr) (body orelse : Block) :
    (whileDo p test body orelse).isPacked =
      (test.isPacked && (List.all body isPacked && List.all orelse isPacked)) := by
  simp only [isPacked, walk, List.all_append, walkBlock_all_not_isSpread]
  rfl

@[simp] theorem isPacked_forEach (p : Pos) (target iter : Expr) (body orelse : Block) :
    (forEach p target iter body orelse).isPacked =
      (target.isPacked &&
        (iter.isPacked && (List.all body isPacked && List.all orelse isPacked))) := by
  simp only [isPacked, walk, List.all_append, walkBlock_all_not_isSpread]
  rfl

end Stmt

namespace Parser

open ValidUsage.Stmt (unplacedBlock)

variable {fractions : Binary64 → Bool} {ts r : List Token} {t : Token} {e : Expr} {s : Stmt}
  {b : Block}

/-- Whether tokens can follow a statement, also one with an empty block. -/
def Follows (r : List Token) : Prop := EndsStmt r ∧ (peek r).kind ≠ .indent

/-- Whether a statement can be written if it is read from its tokens as the same program. -/
def Settles (fractions : Binary64 → Bool) (s : Stmt) : Prop :=
  ∀ n ts r, ts.map Token.bare = s.tokens n → Follows r → ∀ us, us = ts ++ r → ∀ v r' h,
    statement us = .ok ⟨v, r', h⟩ → ∀ rest rest', Block.core (v ++ rest) = Block.core (s :: rest') →
      s.isWritable fractions = true

/-- The same of a choice, behind the word that starts it. -/
def SettlesIf (fractions : Binary64 → Bool) (s : Stmt) : Prop :=
  ∀ p test body orelse, s = .ifElse p test body orelse → ∀ w n t ts q r,
    (t :: ts).map Token.bare = Stmt.ifTokens w test body orelse n → Follows r → ∀ us,
      us = ts ++ r → ∀ v r' h, ifStmt q us = .ok ⟨v, r', h⟩ → v.core = s.core →
        s.isWritable fractions = true

private theorem value_eq_of_reads {α β : Type} {f : α → β} {n : Nat} {x : Parse α n} {b : β}
    {r r' : List Token} {a : α} {h' : r'.length < n} (h : Reads f x b r)
    (hx : x = .ok ⟨a, r', h'⟩) : f a = b ∧ r' = r := by
  obtain ⟨a', _, ha, he⟩ := h
  rw [ha] at hx
  cases hx
  exact ⟨he, rfl⟩

private theorem follows_of_startsStmt (h : StartsStmt t) (r : List Token) : Follows (t :: r) := by
  refine ⟨h.2, fun hk => ?_⟩
  have hl := h.1
  rw [show t.kind = .indent from hk] at hl
  exact absurd hl nofun

private theorem follows_of_endsBlock {inside : Bool} (h : endsBlock inside t = true)
    (r : List Token) :
    Follows (t :: r) := by
  refine ⟨endsStmt_of_isLayout (isLayout_of_endsBlock h), fun hi => ?_⟩
  rcases kind_of_endsBlock h with hk | hk <;> cases hk.symm.trans hi

/-- Whether a statement is one that reading gives, without slices in tuples. -/
def IsLaid (fractions : Binary64 → Bool) (s : Stmt) : Prop :=
  s.isSpelled fractions = true ∧ s.isPacked = true

/-- A statement without blocks that is read can be written. -/
theorem IsLaid.isWritable (h : IsLaid fractions s) (hs : s.nested.all (!·.isMisread) = true) :
    s.isWritable fractions = true :=
  Stmt.isWritable_iff.2 ⟨h.1, h.2, hs⟩

/-- The tokens of a statement that reading gives start one. -/
theorem IsLaid.starts (hf : ∀ x, fractions x = true → x.IsWritten) (h : IsLaid fractions s)
    {n : Nat} (hts : ts.map Token.bare = s.tokens n) :
    ∃ t ts', ts = t :: ts' ∧ StartsStmt t := by
  have word {w : String} {ps : List (TokenKind × String)} (hw : w ≠ "elif" ∧ w ≠ "else")
      (hts : ts.map Token.bare = (.name, w) :: ps) : ∃ t ts', ts = t :: ts' ∧ StartsStmt t := by
    obtain ⟨t, ts', rfl, ht, -⟩ := List.map_eq_cons_iff.1 hts
    simp only [Token.bare, Prod.mk.injEq] at ht
    exact ⟨t, ts', rfl, startsStmt_of_word ht.1 ht.2 hw⟩
  cases s with
  | ifElse | forEach | whileDo =>
    rw [Stmt.tokens] at hts
    exact word (by decide) hts
  | _ => exact (isRead_of_isWritable hf (h.isWritable rfl) n ts hts).starts

private theorem follows_block (hf : ∀ x, fractions x = true → x.IsWritten)
    (h : ∀ s ∈ b, IsLaid fractions s) {n : Nat} (hts : ts.map Token.bare = Stmt.blockTokens b n)
    (hr : Follows r) : Follows (ts ++ r) := by
  cases b with
  | nil =>
    obtain rfl := List.map_eq_nil_iff.1 hts
    exact hr
  | cons s ss =>
    obtain ⟨ts₁, ts₂, rfl, hts₁, -⟩ := List.map_eq_append_iff.1 hts
    obtain ⟨t₁, ts₃, rfl, hs⟩ := (h s List.mem_cons_self).starts hf hts₁
    exact follows_of_startsStmt hs _

private theorem settles_statements (hf : ∀ x, fractions x = true → x.IsWritten)
    (h : ∀ s ∈ b, IsLaid fractions s ∧ Settles fractions s) {n : Nat}
    (hts : ts.map Token.bare = Stmt.blockTokens b n) {inside : Bool}
    (ht : endsBlock inside t = true) {us : List Token} (hus : us = ts ++ t :: r) {v : Block}
    {r' : List Token} {h' : r'.length < us.length + 1}
    (hread : statements inside us = .ok ⟨v, r', h'⟩) (hcore : v.core = b.core) :
    ∀ s ∈ b, s.isWritable fractions = true := by
  induction b generalizing ts us v r' with
  | nil => exact nofun
  | cons s ss ih =>
    obtain ⟨ts₁, ts₂, rfl, hts₁, hts₂⟩ := List.map_eq_append_iff.1 hts
    obtain ⟨hs, hset⟩ := h s List.mem_cons_self
    have hss : ∀ s ∈ ss, IsLaid fractions s ∧ Settles fractions s :=
      fun s hs => h s (List.mem_cons_of_mem _ hs)
    have hfollows : Follows (ts₂ ++ t :: r) :=
      follows_block hf (fun s hs => (hss s hs).1) hts₂ (follows_of_endsBlock ht r)
    obtain ⟨t₁, ts₃, rfl, hstart⟩ := hs.starts hf hts₁
    have hend : endsBlock inside t₁ = false := not_endsBlock hstart.1 inside
    obtain rfl : us = t₁ :: (ts₃ ++ (ts₂ ++ t :: r)) := by simpa using hus
    rw [statements, if_neg (by simp [hend])] at hread
    obtain ⟨⟨v₁, r₁, h₁⟩, hstmt, hread⟩ := ok_of_bind hread
    obtain ⟨⟨v₂, r₂, h₂⟩, hrest, hread⟩ := ok_of_bind hread
    cases hread
    have hw := hset n _ _ hts₁ hfollows _ rfl _ _ _ hstmt v₂ ss hcore
    -- the statement is read as it is, so what is left is the rest of the block
    obtain ⟨he, rfl⟩ := value_eq_of_reads
      ((isRead_of_isWritable hf hw n _ hts₁).reads _ hfollows.1) hstmt
    have hcore₁ : v₁.core = Block.core [s] := by
      rw [← Stmt.core_unplacedBlock, he, ← Stmt.core_unplacedBlock [s]]
      rfl
    have hcore₂ : v₂.core = Block.core ss := by
      rw [← List.singleton_append, Stmt.core_append, Stmt.core_append, hcore₁] at hcore
      exact List.append_cancel_left hcore
    exact List.forall_mem_cons.2 ⟨hw, ih hss hts₂ rfl hrest hcore₂⟩

private theorem settles_suite (hf : ∀ x, fractions x = true → x.IsWritten)
    (h : ∀ s ∈ b, IsLaid fractions s ∧ Settles fractions s) {n : Nat}
    (hts : ts.map Token.bare = Stmt.bodyTokens b (Stmt.blockTokens b n))
    (hr : (peek r).kind ≠ .indent) {us : List Token} (hus : us = ts ++ r) {v : Block}
    {r' : List Token} {h' : r'.length < us.length} (hread : block us = .ok ⟨v, r', h'⟩)
    (hcore : v.core = b.core) :
    b ≠ [] ∧ (∀ s ∈ b, s.isWritable fractions = true) ∧ r' = r := by
  by_cases hne : b = []
  · subst hne
    obtain ⟨t, rfl, ht⟩ := List.map_eq_singleton_iff.1 hts
    have hk : t.kind = .newline := congrArg Prod.fst ht
    obtain rfl : us = t :: r := hus
    rw [block.eq_def] at hread
    dsimp only at hread
    rw [if_pos hk] at hread
    cases r with
    | nil => exact absurd hread nofun
    | cons t' r =>
      dsimp only at hread
      rw [if_neg (show ¬ t'.kind = .indent from hr)] at hread
      exact absurd hread nofun
  · rw [Stmt.bodyTokens_eq hne] at hts
    suffices hw : ∀ s ∈ b, s.isWritable fractions = true by
      have hreads := reads_suite (r := r) (fun s hs => isRead_of_isWritable hf (hw s hs)) hts
      subst hus
      exact ⟨hne, hw, (value_eq_of_reads hreads hread).2⟩
    obtain ⟨t₁, ts₁, rfl, h₁, hts₁⟩ := List.map_eq_cons_iff.1 hts
    obtain ⟨t₂, ts₂, rfl, h₂, hts₂⟩ := List.map_eq_cons_iff.1 hts₁
    obtain ⟨ts₃, ts₄, rfl, hts₃, hts₄⟩ := List.map_eq_append_iff.1 hts₂
    obtain ⟨t₃, rfl, h₃⟩ := List.map_eq_singleton_iff.1 hts₄
    have hk₁ : t₁.kind = .newline := congrArg Prod.fst h₁
    have hk₂ : t₂.kind = .indent := congrArg Prod.fst h₂
    have hk₃ : t₃.kind = .dedent := congrArg Prod.fst h₃
    obtain rfl : us = t₁ :: t₂ :: (ts₃ ++ t₃ :: r) := by simpa using hus
    rw [block.eq_def] at hread
    dsimp only at hread
    rw [if_pos hk₁, if_pos hk₂] at hread
    obtain ⟨⟨body, r₁, h₁⟩, hbody, hread⟩ := ok_of_bind hread
    cases hread
    exact settles_statements hf h hts₃
      (show endsBlock true t₃ = true by simp [endsBlock, hk₃]) rfl hbody
      hcore

private theorem settles_else (hf : ∀ x, fractions x = true → x.IsWritten)
    (h : ∀ s ∈ b, IsLaid fractions s ∧ Settles fractions s) {c : Bool}
    (hc : c = true → ∀ p test body orelse, b ≠ [.ifElse p test body orelse]) {n : Nat}
    (hts : ts.map Token.bare = Stmt.elseTokens c b n) (hr : Follows r) {us : List Token}
    (hus : us = ts ++ r) {v : Block} {r' : List Token} {h' : r'.length < us.length + 1}
    (hread : elseBlock us = .ok ⟨v, r', h'⟩) (hcore : v.core = b.core) :
    ∀ s ∈ b, s.isWritable fractions = true := by
  by_cases hne : b = []
  · subst hne
    exact nofun
  · rw [elseTokens_eq hne hc, ← Stmt.bodyTokens_eq hne] at hts
    obtain ⟨t₁, ts₁, rfl, h₁, hts₁⟩ := List.map_eq_cons_iff.1 hts
    obtain ⟨t₂, ts₂, rfl, h₂, hts₂⟩ := List.map_eq_cons_iff.1 hts₁
    simp only [Token.bare, Prod.mk.injEq] at h₁ h₂
    obtain rfl : us = t₁ :: t₂ :: (ts₂ ++ r) := hus
    rw [elseBlock] at hread
    simp only [eat?, is_of_name h₁.1 h₁.2, if_true] at hread
    obtain ⟨⟨r₁, h₃⟩, hcolon, hread⟩ := ok_of_bind hread
    rw [expect_of_is (is_of_op h₂.1 h₂.2)] at hcolon
    cases hcolon
    obtain ⟨⟨body, r₂, h₄⟩, hbody, hread⟩ := ok_of_bind hread
    cases hread
    exact (settles_suite hf h hts₂ hr.2 rfl hbody hcore).2.1

/-- What follows the block of a head is its `else`, or what follows the statement. -/
theorem peek_else (hr : Follows r) {c : Bool} {n : Nat}
    (hts : ts.map Token.bare = Stmt.elseTokens c b n) : (peek (ts ++ r)).kind ≠ .indent := by
  have word {w : String} {ps : List (TokenKind × String)}
      (hts : ts.map Token.bare = (.name, w) :: ps) :
      (peek (ts ++ r)).kind ≠ .indent := by
    obtain ⟨t, ts', rfl, ht, -⟩ := List.map_eq_cons_iff.1 hts
    have hk : t.kind = .name := congrArg Prod.fst ht
    exact fun hi => absurd (hk.symm.trans hi) nofun
  by_cases hne : b = []
  · subst hne
    rw [Stmt.elseTokens] at hts
    obtain rfl := List.map_eq_nil_iff.1 hts
    exact hr.2
  · by_cases hi : c = true ∧ ∃ p test body orelse, b = [.ifElse p test body orelse]
    · obtain ⟨rfl, p, test, body, orelse, rfl⟩ := hi
      rw [Stmt.elseTokens, if_pos rfl] at hts
      exact word hts
    · rw [elseTokens_eq hne fun hc p test body orelse he =>
        hi ⟨hc, p, test, body, orelse, he⟩] at hts
      exact word hts

private theorem core_of_singleton {s s' : Stmt} (hs : s.isComment = false)
    (h : Block.core [s'] = Block.core [s]) : s'.core = s.core := by
  cases hs' : s'.isComment with
  | true =>
    rw [Stmt.core_cons hs, Block.core, Stmt.bareBlockBy, if_pos hs'] at h
    cases h
  | false =>
    rw [Stmt.core_cons hs, Stmt.core_cons hs'] at h
    exact (List.cons.inj h).1

/-- What a choice is read as, whose condition is read as it is. -/
theorem ifStmt_inv {q : Pos} {us : List Token} {v : Stmt} {r' : List Token}
    {h' : r'.length < us.length} (hread : ifStmt q us = .ok ⟨v, r', h'⟩)
    (htest : Reads Expr.unplaced (test us) e (t :: r)) (ht : t.is ":" = true) :
    ∃ cond body orelse r₁ h₁, v = .ifElse q cond body orelse ∧ block r = .ok ⟨body, r₁, h₁⟩ ∧
      ((∃ s p r₂ h₂ r₃ h₃, eat? "elif" r₁ = some ⟨r₂, h₂⟩ ∧ ifStmt p r₂ = .ok ⟨s, r₃, h₃⟩ ∧
        orelse = [s]) ∨
      (eat? "elif" r₁ = none ∧ ∃ r₂ h₂, elseBlock r₁ = .ok ⟨orelse, r₂, h₂⟩)) := by
  rw [ifStmt] at hread
  obtain ⟨⟨cond, r₀, h₀⟩, hcond, hread⟩ := ok_of_bind hread
  obtain ⟨-, rfl⟩ := value_eq_of_reads htest hcond
  obtain ⟨⟨r₁, h₁⟩, hexpect, hread⟩ := ok_of_bind hread
  rw [expect_of_is ht] at hexpect
  cases hexpect
  obtain ⟨⟨body, r₁, h₁⟩, hbody, hread⟩ := ok_of_bind hread
  dsimp only at hread
  split at hread
  · rename_i r₂ h₂ helif
    obtain ⟨⟨s, r₃, h₃⟩, hs, hread⟩ := ok_of_bind hread
    cases hread
    exact ⟨cond, body, [s], r₁, h₁, rfl, hbody, .inl ⟨s, _, r₂, h₂, r₃, h₃, helif, hs, rfl⟩⟩
  · rename_i helif
    obtain ⟨⟨orelse, r₂, h₂⟩, horelse, hread⟩ := ok_of_bind hread
    cases hread
    exact ⟨cond, body, orelse, r₁, h₁, rfl, hbody, .inr ⟨helif, r₂, h₂, horelse⟩⟩

/-- Whether the tokens of an `else` start with `elif`. -/
theorem eat?_elif_else {c : Bool}
    (hc : c = true → ∀ p test body orelse, b ≠ [.ifElse p test body orelse])
    {n : Nat} (hts : ts.map Token.bare = Stmt.elseTokens c b n) (hr : Follows r) :
    eat? "elif" (ts ++ r) = none := by
  by_cases hne : b = []
  · subst hne
    rw [Stmt.elseTokens] at hts
    obtain rfl := List.map_eq_nil_iff.1 hts
    exact eat?_of_at? hr.1.1
  · rw [elseTokens_eq hne hc] at hts
    obtain ⟨t, ts', rfl, ht, -⟩ := List.map_eq_cons_iff.1 hts
    have ht : t.text = "else" := congrArg Prod.snd ht
    exact eat?_of_at? ((at?_cons _ _ _).trans (is_eq_false (by rw [ht]; decide)))

private theorem settlesIf (hf : ∀ x, fractions x = true → x.IsWritten) {p : Pos} {test : Expr}
    {body orelse : Block} (ht : test.isOperand fractions = true)
    (hb : ∀ s ∈ body, IsLaid fractions s ∧ Settles fractions s)
    (ho : ∀ s ∈ orelse, (IsLaid fractions s ∧ Settles fractions s) ∧ SettlesIf fractions s) :
    SettlesIf fractions (.ifElse p test body orelse) := by
  rintro p' test' body' orelse' he w n t ts q r hts hr us hus v r' h' hread hcore
  cases he
  obtain ⟨t', ts', hcons, -, hts⟩ := List.map_eq_cons_iff.1 hts
  obtain ⟨rfl, rfl⟩ := List.cons.inj hcons
  obtain ⟨ts₁, ts₂, rfl, hts₁, hts₂⟩ := List.map_eq_append_iff.1 hts
  obtain ⟨t₁, ts₃, rfl, h₁, hts₃⟩ := List.map_eq_cons_iff.1 hts₂
  obtain ⟨ts₄, ts₅, rfl, hts₄, hts₅⟩ := List.map_eq_append_iff.1 hts₃
  simp only [Token.bare, Prod.mk.injEq] at h₁
  have hcolon := is_of_op h₁.1 h₁.2
  obtain rfl : us = ts₁ ++ t₁ :: (ts₄ ++ (ts₅ ++ r)) := by simpa using hus
  obtain ⟨cond, body₁, orelse₁, r₁, h₁, rfl, hbody, horelse⟩ := ifStmt_inv hread
    (reads_test_colon (r := ts₄ ++ (ts₅ ++ r)) (readsAt_of_isOperand hf ht hts₁) hcolon) hcolon
  obtain ⟨-, -, hcb, hco⟩ := Stmt.ifElse.inj hcore
  obtain ⟨hne, hw, rfl⟩ := settles_suite hf hb hts₄ (peek_else hr hts₅) rfl hbody hcb
  suffices hwo : ∀ s ∈ orelse, s.isWritable fractions = true by
    simp [Stmt.isWritable, ht, hne, Stmt.areWritable_iff.2 hw, Stmt.areWritable_iff.2 hwo]
  by_cases hi : ∃ p test body orelse', orelse = [.ifElse p test body orelse']
  · obtain ⟨p₁, test₁, body₂, orelse₂, rfl⟩ := hi
    rw [Stmt.elseTokens, if_pos rfl] at hts₅
    obtain ⟨t₂, ts₆, rfl, h₂, hts₆⟩ := List.map_eq_cons_iff.1 hts₅
    simp only [Token.bare, Prod.mk.injEq] at h₂
    have helif : eat? "elif" (t₂ :: ts₆ ++ r) = some ⟨ts₆ ++ r, length_lt_cons _ _⟩ := by
      simp [eat?, is_of_name h₂.1 h₂.2]
    rcases horelse with ⟨s₁, p₂, r₂, h₃, r₃, h₄, he, hs₁, rfl⟩ | ⟨he, -⟩
    · rw [helif] at he
      cases he
      refine List.forall_mem_singleton.2 ?_
      refine (ho _ List.mem_cons_self).2 p₁ test₁ body₂ orelse₂ rfl "elif" n t₂ ts₆ _ r ?_ hr _ rfl
        _ _ _ hs₁ (core_of_singleton rfl hco)
      rw [List.map_cons, hts₆, Token.bare, h₂.1, h₂.2]
      rfl
    · rw [helif] at he
      cases he
  · have hc : true = true → ∀ p test body orelse', orelse ≠ [.ifElse p test body orelse'] :=
      fun _ p test body orelse' he => hi ⟨p, test, body, orelse', he⟩
    rcases horelse with ⟨s₁, p₂, r₂, h₃, r₃, h₄, he, -, -⟩ | ⟨-, r₂, h₃, horelse⟩
    · cases (eat?_elif_else hc hts₅ hr).symm.trans he
    · exact settles_else hf (fun s hs => (ho s hs).1) hc hts₅ hr rfl horelse hco

private theorem isComment_of_ifStmt {q : Pos} {us : List Token} {v : Stmt} {r' : List Token}
    {h' : r'.length < us.length} (hread : ifStmt q us = .ok ⟨v, r', h'⟩) : v.isComment = false := by
  rw [ifStmt] at hread
  obtain ⟨_, -, hread⟩ := ok_of_bind hread
  obtain ⟨_, -, hread⟩ := ok_of_bind hread
  obtain ⟨_, -, hread⟩ := ok_of_bind hread
  dsimp only at hread
  split at hread
  all_goals
    obtain ⟨_, -, hread⟩ := ok_of_bind hread
    cases hread
    rfl

section Inversion

variable {us : List Token} {v : Block} {r' : List Token} {h' : r'.length < (t :: us).length}

private theorem statement_if_inv (hk : t.kind = .name) (ht : t.text = "if")
    (hread : statement (t :: us) = .ok ⟨v, r', h'⟩) :
    ∃ s r₁ h₁, v = [s] ∧ ifStmt t.pos us = .ok ⟨s, r₁, h₁⟩ := by
  rw [statement] at hread
  simp only [hk, ht, reduceCtorEq, if_false, and_self, if_true] at hread
  obtain ⟨⟨s, r₁, h₁⟩, hs, hread⟩ := ok_of_bind hread
  cases hread
  exact ⟨s, r₁, h₁, rfl, hs⟩

private theorem statement_while_inv (hk : t.kind = .name) (ht : t.text = "while")
    (hread : statement (t :: us) = .ok ⟨v, r', h'⟩) {t' : Token}
    (htest : Reads Expr.unplaced (test us) e (t' :: r)) (ht' : t'.is ":" = true) :
    ∃ cond body orelse r₁ h₁ r₂ h₂, v = [.whileDo t.pos cond body orelse] ∧
      block r = .ok ⟨body, r₁, h₁⟩ ∧ elseBlock r₁ = .ok ⟨orelse, r₂, h₂⟩ := by
  rw [statement] at hread
  simp only [hk, ht, reduceCtorEq, if_false, and_self, if_true] at hread
  obtain ⟨⟨cond, r₀, h₀⟩, hcond, hread⟩ := ok_of_bind hread
  obtain ⟨-, rfl⟩ := value_eq_of_reads htest hcond
  obtain ⟨⟨r₁, h₁⟩, hexpect, hread⟩ := ok_of_bind hread
  rw [expect_of_is ht'] at hexpect
  cases hexpect
  obtain ⟨⟨body, r₁, h₁⟩, hbody, hread⟩ := ok_of_bind hread
  obtain ⟨⟨orelse, r₂, h₂⟩, horelse, hread⟩ := ok_of_bind hread
  cases hread
  exact ⟨cond, body, orelse, r₁, h₁, r₂, h₂, rfl, hbody, horelse⟩

private theorem statement_for_inv (hk : t.kind = .name) (ht : t.text = "for")
    (hread : statement (t :: us) = .ok ⟨v, r', h'⟩) :
    ∃ target iter body orelse r₁ h₁ r₂ h₂ r₃ h₃ r₄ h₄ r₅ h₅ r₆ h₆,
      v = [.forEach t.pos target iter body orelse] ∧
      sequence .targets us = .ok ⟨target, r₁, h₁⟩ ∧ expect "in" r₁ = .ok ⟨r₂, h₂⟩ ∧
      sequence .values r₂ = .ok ⟨iter, r₃, h₃⟩ ∧ expect ":" r₃ = .ok ⟨r₄, h₄⟩ ∧
      block r₄ = .ok ⟨body, r₅, h₅⟩ ∧ elseBlock r₅ = .ok ⟨orelse, r₆, h₆⟩ := by
  rw [statement] at hread
  simp only [hk, ht, reduceCtorEq, if_false, and_self, if_true] at hread
  obtain ⟨⟨target, r₁, h₁⟩, htarget, hread⟩ := ok_of_bind hread
  obtain ⟨⟨r₂, h₂⟩, hin, hread⟩ := ok_of_bind hread
  obtain ⟨⟨iter, r₃, h₃⟩, hiter, hread⟩ := ok_of_bind hread
  obtain ⟨⟨r₄, h₄⟩, hcolon, hread⟩ := ok_of_bind hread
  obtain ⟨⟨body, r₅, h₅⟩, hbody, hread⟩ := ok_of_bind hread
  obtain ⟨⟨orelse, r₆, h₆⟩, horelse, hread⟩ := ok_of_bind hread
  cases hread
  exact ⟨target, iter, body, orelse, r₁, h₁, r₂, h₂, r₃, h₃, r₄, h₄, r₅, h₅, r₆, h₆, rfl, htarget,
    hin, hiter, hcolon, hbody, horelse⟩

end Inversion

/-- A statement can be written if it is read from its tokens as the same program. -/
theorem settles (hf : ∀ x, fractions x = true → x.IsWritten) (h : IsLaid fractions s) :
    Settles fractions s := by
  suffices hs : Settles fractions s ∧ SettlesIf fractions s from hs.1
  have operand {e : Expr} (h : e.isSlice = false ∧ e.isSpelled fractions = true)
      (hp : e.isPacked = true) : e.isOperand fractions = true :=
    Expr.isOperand_iff.2 ⟨h.1, h.2, hp⟩
  have each {b : Block} (h : ∀ s ∈ b, s.isSpelled fractions = true)
      (hp : b.all Stmt.isPacked = true) : ∀ s ∈ b, IsLaid fractions s :=
    fun s hs => ⟨h s hs, List.all_eq_true.1 hp s hs⟩
  induction s using Stmt.partsInduction with
  | ifElse p test body orelse ihb iho =>
    obtain ⟨hs, hp⟩ := h
    obtain ⟨ht, hb, ho⟩ := Stmt.isSpelled_iff.1 hs
    simp only [Stmt.isPacked_ifElse, Bool.and_eq_true] at hp
    have hb := each hb hp.2.1
    have ho := each ho hp.2.2
    have hif : SettlesIf fractions (.ifElse p test body orelse) :=
      settlesIf hf (operand ht hp.1) (fun s hs => ⟨hb s hs, (ihb s hs (hb s hs)).1⟩)
        fun s hs => ⟨⟨ho s hs, (iho s hs (ho s hs)).1⟩, (iho s hs (ho s hs)).2⟩
    refine ⟨?_, hif⟩
    rintro n ts r hts hr us hus v r' h' hread rest rest' hcore
    obtain ⟨t, ts', rfl, h₁, -⟩ := List.map_eq_cons_iff.1 hts
    simp only [Token.bare, Prod.mk.injEq] at h₁
    obtain rfl : us = t :: (ts' ++ r) := hus
    obtain ⟨s₁, r₁, h₂, rfl, hs₁⟩ := statement_if_inv h₁.1 h₁.2 hread
    rw [List.singleton_append, Stmt.core_cons (isComment_of_ifStmt hs₁),
      Stmt.core_cons rfl] at hcore
    exact hif p test body orelse rfl "if" n t ts' _ r hts hr _ rfl _ _ _ hs₁ (List.cons.inj hcore).1
  | forEach p target iter body orelse ihb iho =>
    obtain ⟨hs, hp⟩ := h
    obtain ⟨ht, hi, hb, ho⟩ := Stmt.isSpelled_iff.1 hs
    simp only [Stmt.isPacked_forEach, Bool.and_eq_true] at hp
    have ht := operand ht hp.1
    have hi := operand hi hp.2.1
    have hb := each hb hp.2.2.1
    have ho := each ho hp.2.2.2
    refine ⟨?_, by rintro _ _ _ _ ⟨⟩⟩
    rintro n ts r hts hr us hus v r' h' hread rest rest' hcore
    obtain ⟨t, ts, rfl, h₁, hts⟩ := List.map_eq_cons_iff.1 hts
    obtain ⟨ts₁, ts₂, rfl, hts₁, hts⟩ := List.map_eq_append_iff.1 hts
    obtain ⟨t₂, ts₃, rfl, h₂, hts⟩ := List.map_eq_cons_iff.1 hts
    obtain ⟨ts₄, ts₅, rfl, hts₄, hts⟩ := List.map_eq_append_iff.1 hts
    obtain ⟨t₃, ts₆, rfl, h₃, hts⟩ := List.map_eq_cons_iff.1 hts
    obtain ⟨ts₇, ts₈, rfl, hts₇, hts₈⟩ := List.map_eq_append_iff.1 hts
    simp only [Token.bare, Prod.mk.injEq] at h₁ h₂ h₃
    have hin : t₂.is "in" = true := is_of_name h₂.1 h₂.2
    have hstop : Stops 8 (t₂ :: (ts₄ ++ t₃ :: (ts₇ ++ (ts₈ ++ r)))) :=
      .cons (by rw [jointOf_of_is hin]; decide)
    obtain rfl : us = t :: (ts₁ ++ t₂ :: (ts₄ ++ t₃ :: (ts₇ ++ (ts₈ ++ r)))) := by
      simpa using hus
    obtain ⟨target₁, iter₁, body₁, orelse₁, r₁, h₄, r₂, h₅, r₃, h₆, r₄, h₇, r₅, h₈, r₆, h₉, rfl,
      htarget, hexpect, hiter, hexpect', hbody, horelse⟩ := statement_for_inv h₁.1 h₁.2 hread
    rw [List.singleton_append, Stmt.core_cons rfl, Stmt.core_cons rfl] at hcore
    obtain ⟨-, hct, -, hcb, hco⟩ := Stmt.forEach.inj (List.cons.inj hcore).1
    -- the target is read as it is, and so is everything up to the block
    have hloop := isLoopTarget_of_core hf ht hts₁ hstop rfl htarget hct
    obtain ⟨-, rfl⟩ := value_eq_of_reads (r := t₂ :: (ts₄ ++ t₃ :: (ts₇ ++ (ts₈ ++ r))))
      (reads_sequence (by
        rw [item]
        exact (readsAt_of_isLoopTarget hf ht hloop hts₁).read hstop)
        ((at?_cons _ _ _).trans (is_eq_false (by rw [h₂.2]; decide)))) htarget
    rw [expect_of_is hin] at hexpect
    cases hexpect
    obtain ⟨-, rfl⟩ := value_eq_of_reads (reads_values_op (r := ts₇ ++ (ts₈ ++ r))
      (readsAt_of_isOperand hf hi hts₄) h₃.1 h₃.2 (by decide)) hiter
    rw [expect_of_is (is_of_op h₃.1 h₃.2)] at hexpect'
    cases hexpect'
    obtain ⟨hne, hw, rfl⟩ := settles_suite hf (fun s hs => ⟨hb s hs, (ihb s hs (hb s hs)).1⟩) hts₇
      (peek_else hr hts₈) rfl hbody hcb
    have hwo :=
      settles_else (c := false) hf (fun s hs => ⟨ho s hs, (iho s hs (ho s hs)).1⟩) (by rintro ⟨⟩)
      hts₈ hr rfl horelse hco
    simp [Stmt.isWritable, ht, hloop, hi, hne, Stmt.areWritable_iff.2 hw,
      Stmt.areWritable_iff.2 hwo]
  | whileDo p test body orelse ihb iho =>
    obtain ⟨hs, hp⟩ := h
    obtain ⟨ht, hb, ho⟩ := Stmt.isSpelled_iff.1 hs
    simp only [Stmt.isPacked_whileDo, Bool.and_eq_true] at hp
    have ht := operand ht hp.1
    have hb := each hb hp.2.1
    have ho := each ho hp.2.2
    refine ⟨?_, by rintro _ _ _ _ ⟨⟩⟩
    rintro n ts r hts hr us hus v r' h' hread rest rest' hcore
    obtain ⟨t, ts, rfl, h₁, hts⟩ := List.map_eq_cons_iff.1 hts
    obtain ⟨ts₁, ts₂, rfl, hts₁, hts⟩ := List.map_eq_append_iff.1 hts
    obtain ⟨t₂, ts₃, rfl, h₂, hts⟩ := List.map_eq_cons_iff.1 hts
    obtain ⟨ts₄, ts₅, rfl, hts₄, hts₅⟩ := List.map_eq_append_iff.1 hts
    simp only [Token.bare, Prod.mk.injEq] at h₁ h₂
    have hcolon := is_of_op h₂.1 h₂.2
    obtain rfl : us = t :: (ts₁ ++ t₂ :: (ts₄ ++ (ts₅ ++ r))) := by simpa using hus
    obtain ⟨cond, body₁, orelse₁, r₁, h₃, r₂, h₄, rfl, hbody, horelse⟩ := statement_while_inv h₁.1
      h₁.2 hread (reads_test_colon (r := ts₄ ++ (ts₅ ++ r)) (readsAt_of_isOperand hf ht hts₁)
        hcolon) hcolon
    rw [List.singleton_append, Stmt.core_cons rfl, Stmt.core_cons rfl] at hcore
    obtain ⟨-, -, hcb, hco⟩ := Stmt.whileDo.inj (List.cons.inj hcore).1
    obtain ⟨hne, hw, rfl⟩ := settles_suite hf (fun s hs => ⟨hb s hs, (ihb s hs (hb s hs)).1⟩) hts₄
      (peek_else hr hts₅) rfl hbody hcb
    have hwo :=
      settles_else (c := false) hf (fun s hs => ⟨ho s hs, (iho s hs (ho s hs)).1⟩) (by rintro ⟨⟩)
      hts₅ hr rfl horelse hco
    simp [Stmt.isWritable, ht, hne, Stmt.areWritable_iff.2 hw, Stmt.areWritable_iff.2 hwo]
  | _ => exact ⟨fun _ _ _ _ _ _ _ _ _ _ _ _ _ _ => h.isWritable rfl, by rintro _ _ _ _ ⟨⟩⟩

end Parser

namespace Block

/-- Blocks that are the same up to positions are the same program. -/
theorem isSame_of_unplaced {b b' : Block} (h : b.unplaced = b'.unplaced) :
    isSame b b' = true := by
  refine beq_iff_eq.2 ?_
  show core b = core b'
  rw [← Stmt.core_unplacedBlock b, ← Stmt.core_unplacedBlock b']
  exact congrArg core h

/-- A block that is spelled can be written if it is read from its layout as the same program. -/
theorem isWritable_of_isSame {fractions : Binary64 → Bool}
    (hf : ∀ x, fractions x = true → x.IsWritten) {b b' : Block} (h : b.isSpelled fractions = true)
    (hread : ofText b.source = .ok b') (hsame : isSame b' b = true) :
    b.isWritable fractions = true := by
  obtain ⟨toks, htoks, hbare⟩ := tokenize_layout hf h
  rw [ofText, keepComments_source hf h, parse, htoks] at hread
  replace hread : ofTokens toks = .ok b' := hread
  have hpacked := all_not_isSpread_of_ofTokens h
    (Lexer.areSound_scan _ .init (fun h => absurd h Bool.false_ne_true)
      (show Lexer.scan .init _ = _ from htoks)) hbare hread
  rw [Block.walk, Stmt.walkBlock_all_not_isSpread] at hpacked
  obtain ⟨ts, ts₁, rfl, hts, hend⟩ := List.map_eq_append_iff.1 hbare
  obtain ⟨t, rfl, ht⟩ := List.map_eq_singleton_iff.1 hend
  have hk : t.kind = .endMarker := congrArg Prod.fst ht
  obtain ⟨⟨v, r, h'⟩, hv, hread⟩ := ok_of_bind hread
  cases hread
  have hlaid : ∀ s ∈ b, IsLaid fractions s := fun s hs =>
    ⟨Stmt.isSpelled_block.1 h s hs, List.all_eq_true.1 hpacked s hs⟩
  refine Stmt.areWritable_iff.2 (settles_statements hf
    (fun s hs => ⟨hlaid s hs, settles hf (hlaid s hs)⟩) hts
    (show endsBlock false t = true by simp [endsBlock, hk]) rfl hv ?_)
  exact eq_of_beq hsame

end Block
end ValidUsage
