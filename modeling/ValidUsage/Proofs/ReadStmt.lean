import ValidUsage.Proofs.ReadExpr
import ValidUsage.Proofs.ScanLines
import ValidUsage.Syntax.Parser

/-!
# Reading the layout of statements

The tokens of the layout of a statement are read as the statement, without its positions, wherever
neither `elif` nor `else` follows. A comment is read as the call that stands for it.
-/

namespace ValidUsage
namespace Stmt

private theorem unplacedBlock_eq_map (b : Block) : unplacedBlock b = b.map unplaced := by
  induction b with
  | nil => rfl
  | cons s ss ih => rw [unplacedBlock, ih, List.map_cons]

private theorem unplacedBlock_append (b b' : Block) :
    unplacedBlock (b ++ b') = unplacedBlock b ++ unplacedBlock b' := by
  simp [unplacedBlock_eq_map]

end Stmt

namespace Parser

open ValidUsage.Expr (unplaced)
open ValidUsage.Stmt (unplacedBlock)

variable {ts r r₁ r₂ r₃ r₄ r₅ : List Token} {t t' : Token} {e e₁ : Expr} {es : List Expr}
  {s : Stmt} {b b' : Block}

/-! ## One step at a time -/

/-- A text that stands at the front is found where it is expected. -/
theorem expect_of_is {text : String} (h : t.is text = true) :
    expect text (t :: r) = .ok ⟨r, Nat.lt_succ_self _⟩ := by
  simp [expect, eat?, h]

private theorem reads_assigned_nil (hr : eat? "=" r = none) :
    Reads (List.map unplaced) (assigned r) [] r := by
  refine ⟨[], length_lt_succ r, ?_, rfl⟩
  rw [assigned, hr]

private theorem reads_assigned_cons (ht : t.is "=" = true)
    (h : Reads unplaced (sequence .values r) e r₁)
    (hs : Reads (List.map unplaced) (assigned r₁) es r₂) :
    Reads (List.map unplaced) (assigned (t :: r)) (e :: es) r₂ := by
  obtain ⟨a, h₁, h, rfl⟩ := h
  obtain ⟨as, h₂, hs, rfl⟩ := hs
  refine ⟨a :: as, by simp; omega, ?_, rfl⟩
  rw [assigned]
  simp only [eat?, ht, if_true, h, hs, bind, Except.bind, pure, Except.pure]

private theorem reads_simpleStmt_word (ht : wordStmt? t = some s) :
    Reads Stmt.unplaced (simpleStmt (t :: r)) s.unplaced r := by
  refine ⟨s, length_lt_cons t r, ?_, rfl⟩
  rw [simpleStmt]
  simp only [ht]

private theorem reads_simpleStmt_expr (ht : wordStmt? t = none)
    (h : Reads unplaced (sequence .values (t :: ts)) e r) (hr : eat? "=" r = none)
    (ho : updateOp? r = none) : Reads Stmt.unplaced (simpleStmt (t :: ts)) (.expr .none e) r := by
  obtain ⟨a, h₁, h, rfl⟩ := h
  obtain ⟨as, h₂, hs, he⟩ := reads_assigned_nil hr
  obtain rfl := List.map_eq_nil_iff.1 he
  refine ⟨.expr t.pos a, h₁, ?_, rfl⟩
  rw [simpleStmt]
  simp only [ht, h, hs, bind, Except.bind, pure, Except.pure]
  simp only [List.reverse_nil, ho]

private theorem reads_simpleStmt_assign (ht : wordStmt? t = none)
    (h : Reads unplaced (sequence .values (t :: ts)) e r)
    (hs : Reads (List.map unplaced) (assigned r) (es ++ [e₁]) r₁) :
    Reads Stmt.unplaced (simpleStmt (t :: ts)) (.assign .none (e :: es) e₁) r₁ := by
  obtain ⟨a, h₁, h, rfl⟩ := h
  obtain ⟨as, h₂, hs, he⟩ := hs
  obtain ⟨as, a', rfl, rfl, ha⟩ := List.map_eq_append_iff.1 he
  obtain ⟨v, rfl, rfl⟩ := List.map_eq_singleton_iff.1 ha
  refine ⟨.assign t.pos (a :: as) v, by omega, ?_, rfl⟩
  rw [simpleStmt]
  simp only [ht, h, hs, bind, Except.bind, pure, Except.pure]
  simp

private theorem reads_simpleStmt_update {op : BinOp} (ht : wordStmt? t = none)
    (h : Reads unplaced (sequence .values (t :: ts)) e (t' :: r)) (hr : t'.is "=" = false)
    (ho : updateOp? (t' :: r) = some op) (hv : Reads unplaced (sequence .values r) e₁ r₁) :
    Reads Stmt.unplaced (simpleStmt (t :: ts)) (.update .none e op e₁) r₁ := by
  obtain ⟨a, h₁, h, rfl⟩ := h
  obtain ⟨v, h₂, hv, rfl⟩ := hv
  obtain ⟨as, h₃, hs, he⟩ := reads_assigned_nil (r := t' :: r) (by simp [eat?, hr])
  obtain rfl := List.map_eq_nil_iff.1 he
  refine ⟨.update t.pos a op v, by simp at h₁ ⊢; omega, ?_, rfl⟩
  rw [simpleStmt]
  simp only [ht, h, hs, bind, Except.bind, pure, Except.pure]
  simp only [List.reverse_nil, ho, List.tail_cons, hv]

private theorem reads_simpleStmts (h : Reads Stmt.unplaced (simpleStmt ts) s (t :: r))
    (ht : t.kind = .newline) : Reads unplacedBlock (simpleStmts ts) [s] r := by
  obtain ⟨a, h₁, h, rfl⟩ := h
  have hrest : simpleRest (t :: r) = .ok ⟨[], t :: r, length_lt_succ _⟩ := by
    rw [simpleRest]
    simp [eat?, Token.is, ht]
  refine ⟨[a], by simp at h₁; omega, ?_, rfl⟩
  rw [simpleStmts]
  simp only [h, hrest, bind, Except.bind, pure, Except.pure, ht, if_true]

private theorem reads_statements_end {inside : Bool} (ht : endsBlock inside t = true) :
    Reads unplacedBlock (statements inside (t :: r)) [] (t :: r) := by
  refine ⟨[], by simp, ?_, rfl⟩
  rw [statements, if_pos ht]

private theorem reads_statements_cons {inside : Bool} (ht : endsBlock inside t = false)
    (h : Reads unplacedBlock (statement (t :: r)) b r₁)
    (hs : Reads unplacedBlock (statements inside r₁) b' r₂) :
    Reads unplacedBlock (statements inside (t :: r)) (b ++ b') r₂ := by
  obtain ⟨a, h₁, h, rfl⟩ := h
  obtain ⟨as, h₂, hs, rfl⟩ := hs
  refine ⟨a ++ as, by omega, ?_, Stmt.unplacedBlock_append a as⟩
  rw [statements, if_neg (by simp [ht])]
  simp only [h, hs, bind, Except.bind, pure, Except.pure]

private theorem reads_block (ht : t.kind = .newline) (ht' : t'.kind = .indent)
    (h : Reads unplacedBlock (statements true ts) b (t₁ :: r)) (hc : t₁.kind = .dedent) :
    Reads unplacedBlock (block (t :: t' :: ts)) b r := by
  obtain ⟨a, h₁, h, rfl⟩ := h
  refine ⟨a, by simp at h₁ ⊢; omega, ?_, rfl⟩
  rw [block]
  simp only [ht, ht', if_true, h, bind, Except.bind, pure, Except.pure]
  simp [closeBlock, hc]

private theorem reads_elseBlock_none (hr : eat? "else" r = none) :
    Reads unplacedBlock (elseBlock r) [] r := by
  refine ⟨[], length_lt_succ r, ?_, rfl⟩
  rw [elseBlock, hr]

private theorem reads_elseBlock (ht : t.is "else" = true) (ht' : t'.is ":" = true)
    (h : Reads unplacedBlock (block ts) b r) :
    Reads unplacedBlock (elseBlock (t :: t' :: ts)) b r := by
  obtain ⟨a, h₁, h, rfl⟩ := h
  refine ⟨a, by simp; omega, ?_, rfl⟩
  rw [elseBlock]
  simp only [eat?, ht, ht', if_true, expect, h, bind, Except.bind, pure, Except.pure]

private theorem reads_ifStmt (p : Pos) (h : Reads unplaced (test ts) e (t :: r))
    (ht : t.is ":" = true)
    (hb : Reads unplacedBlock (block r) b r₁) (hr : eat? "elif" r₁ = none)
    (ho : Reads unplacedBlock (elseBlock r₁) b' r₂) :
    Reads Stmt.unplaced (ifStmt p ts) (.ifElse .none e b b') r₂ := by
  obtain ⟨a, h₁, h, rfl⟩ := h
  obtain ⟨body, h₂, hb, rfl⟩ := hb
  obtain ⟨orelse, h₃, ho, rfl⟩ := ho
  refine ⟨.ifElse p a body orelse, by simp at h₁; omega, ?_, rfl⟩
  rw [ifStmt, h]
  simp only [expect_of_is ht, hb, hr, ho, bind, Except.bind, pure, Except.pure]

private theorem reads_ifStmt_elif (p : Pos) (h : Reads unplaced (test ts) e (t :: r))
    (ht : t.is ":" = true) (hb : Reads unplacedBlock (block r) b (t' :: r₁))
    (ht' : t'.is "elif" = true) (hs : ∀ p, Reads Stmt.unplaced (ifStmt p r₁) s r₂) :
    Reads Stmt.unplaced (ifStmt p ts) (.ifElse .none e b [s]) r₂ := by
  obtain ⟨a, h₁, h, rfl⟩ := h
  obtain ⟨body, h₂, hb, rfl⟩ := hb
  obtain ⟨s, h₃, hs', rfl⟩ := hs t'.pos
  refine ⟨.ifElse p a body [s], by simp at h₁ h₂; omega, ?_, rfl⟩
  rw [ifStmt, h]
  simp only [expect_of_is ht, hb, eat?, ht', if_true, peek, List.headD_cons, hs', bind, Except.bind,
    pure, Except.pure]

private theorem reads_statement_simple (hk : t.kind ≠ .indent)
    (hw : t.kind = .name → t.text ∉ ["if", "for", "while"])
    (h : Reads unplacedBlock (simpleStmts (t :: ts)) b r) :
    Reads unplacedBlock (statement (t :: ts)) b r := by
  obtain ⟨a, h₁, h, rfl⟩ := h
  have hne (w : String) (hm : w ∈ ["if", "for", "while"]) : ¬ (t.kind = .name ∧ t.text = w) := by
    rintro ⟨hn, rfl⟩
    exact hw hn hm
  refine ⟨a, h₁, ?_, rfl⟩
  rw [statement]
  simp only [hk, hne "if" (by decide), hne "for" (by decide), hne "while" (by decide), if_false, h]

private theorem reads_statement_if (hk : t.kind = .name) (ht : t.text = "if")
    (h : Reads Stmt.unplaced (ifStmt t.pos ts) s r) :
    Reads unplacedBlock (statement (t :: ts)) [s] r := by
  obtain ⟨a, h₁, h, rfl⟩ := h
  refine ⟨[a], by simp; omega, ?_, rfl⟩
  rw [statement]
  simp [hk, ht, h, bind, Except.bind, pure, Except.pure]

private theorem reads_statement_for (hk : t.kind = .name) (ht : t.text = "for") {t₁ t₂ : Token}
    (h : Reads unplaced (sequence .targets ts) e (t₁ :: r)) (ht₁ : t₁.is "in" = true)
    (hi : Reads unplaced (sequence .values r) e₁ (t₂ :: r₁)) (ht₂ : t₂.is ":" = true)
    (hb : Reads unplacedBlock (block r₁) b r₂) (ho : Reads unplacedBlock (elseBlock r₂) b' r₃) :
    Reads unplacedBlock (statement (t :: ts)) [.forEach .none e e₁ b b'] r₃ := by
  obtain ⟨a, h₁, h, rfl⟩ := h
  obtain ⟨i, h₂, hi, rfl⟩ := hi
  obtain ⟨body, h₃, hb, rfl⟩ := hb
  obtain ⟨orelse, h₄, ho, rfl⟩ := ho
  refine ⟨[.forEach t.pos a i body orelse], by simp at h₁ h₂ ⊢; omega, ?_, rfl⟩
  rw [statement]
  simp [hk, ht, h, eat?, ht₁, ht₂, expect, hi, hb, ho, bind, Except.bind, pure, Except.pure]

private theorem reads_statement_while (hk : t.kind = .name) (ht : t.text = "while")
    (h : Reads unplaced (test ts) e (t' :: r)) (ht' : t'.is ":" = true)
    (hb : Reads unplacedBlock (block r) b r₁) (ho : Reads unplacedBlock (elseBlock r₁) b' r₂) :
    Reads unplacedBlock (statement (t :: ts)) [.whileDo .none e b b'] r₂ := by
  obtain ⟨a, h₁, h, rfl⟩ := h
  obtain ⟨body, h₂, hb, rfl⟩ := hb
  obtain ⟨orelse, h₃, ho, rfl⟩ := ho
  refine ⟨[.whileDo t.pos a body orelse], by simp at h₁ ⊢; omega, ?_, rfl⟩
  rw [statement]
  simp [hk, ht, h, eat?, ht', expect, hb, ho, bind, Except.bind, pure, Except.pure]

/-! ## Lines -/

variable {fractions : Binary64 → Bool}

/-- What an expression that can be written is read by. -/
theorem readsAt_of_isOperand (hf : ∀ x, fractions x = true → x.IsWritten)
    (h : e.isOperand fractions = true) {n : Nat} (hts : Spells ts (e.layout n)) :
    ReadsAt 13 ts e.unplaced := by
  simp only [Expr.isOperand, Bool.and_eq_true, Bool.not_eq_true'] at h
  exact ((Expr.readsBack_of_isWritable hf h.2).readable h.1 n ts hts).mono (Expr.rank_le h.1)
    (by decide)

private theorem rank_le_of_isLoopTarget (h : e.isLoopTarget = true) (hs : e.isSlice = false) :
    e.rank ≤ 8 := by
  cases e with
  | unary p op operand =>
    have hop : op ≠ .not := by simpa [Expr.isLoopTarget] using h
    simp [Expr.rank, hop]
  | binary p left op right => exact (Expr.joint_spelling_bounds op).2
  | compare | ifExp => cases h
  | slice => cases hs
  | _ => simp [Expr.rank]

/-- What can stand before the `in` of a loop is read up to it. -/
theorem readsAt_of_isLoopTarget (hf : ∀ x, fractions x = true → x.IsWritten)
    (h : e.isOperand fractions = true) (ht : e.isLoopTarget = true) {n : Nat}
    (hts : Spells ts (e.layout n)) : ReadsAt 8 ts e.unplaced := by
  simp only [Expr.isOperand, Bool.and_eq_true, Bool.not_eq_true'] at h
  exact ((Expr.readsBack_of_isWritable hf h.2).readable h.1 n ts hts).mono
    (rank_le_of_isLoopTarget ht h.1) (by decide)

private theorem reads_values (h : ReadsAt 13 ts e) (hr : Stops 13 r) (hc : at? "," r = false) :
    Reads unplaced (sequence .values (ts ++ r)) e r := by
  refine reads_sequence ?_ hc
  rw [Expr.item_values]
  exact h.read hr

/-- The words at which a statement has its own reader, or goes on. -/
def headWords : List String := ["if", "for", "while", "elif", "else"]

/-- Whether a token starts a simple statement. -/
def StartsSimple (t : Token) : Prop := t.kind.isLayout = false ∧ ∀ w ∈ headWords, t.is w = false

private theorem is_eq_false_of_opening (h : opening t.kind t.text ≤ 13) {w : String}
    (hw : opening .name w = 14 ∧ opening .op w = 14) : t.is w = false := by
  rw [← Bool.not_eq_true]
  intro hi
  simp only [Token.is, Bool.and_eq_true, Bool.or_eq_true, beq_iff_eq] at hi
  obtain ⟨hk | hk, rfl⟩ := hi
  · rw [hk, hw.2] at h
    exact absurd h (by decide)
  · rw [hk, hw.1] at h
    exact absurd h (by decide)

private theorem startsSimple_of_opening (h : opening t.kind t.text ≤ 13) : StartsSimple t := by
  have hwords : ∀ w ∈ headWords, opening .name w = 14 ∧ opening .op w = 14 := by decide
  refine ⟨?_, fun w hw => is_eq_false_of_opening h (hwords w hw)⟩
  cases hk : t.kind with
  | newline | indent | dedent | endMarker =>
    rw [hk] at h
    exact absurd h (by simp [opening])
  | _ => rfl

private theorem wordStmt?_of_opening (h : opening t.kind t.text ≤ 13) : wordStmt? t = none := by
  have hne (w : String) (hw : opening .name w = 14 ∧ opening .op w = 14) (hk : t.kind = .name) :
      t.text ≠ w := by
    rintro rfl
    have := is_eq_false_of_opening h hw
    simp [Token.is, hk] at this
  unfold wordStmt?
  split
  next hk =>
    rw [if_neg (hne "pass" (by decide) hk), if_neg (hne "break" (by decide) hk),
      if_neg (hne "continue" (by decide) hk)]
  next => rfl

private theorem is_eq_false_of_isLayout (ht : t.kind.isLayout = true) (text : String) :
    t.is text = false := by
  cases hk : t.kind <;> simp_all [Token.is, TokenKind.isLayout]

private theorem stops_of_isLayout (ht : t.kind.isLayout = true) {k : Nat} (hk : k ≤ 13) :
    Stops k (t :: r) := by
  refine .cons ?_
  unfold jointOf
  split <;> simp_all [TokenKind.isLayout]
  omega

/-! ## Statements -/

/-- Whether tokens can follow a statement: neither `elif` nor `else` comes first. -/
def EndsStmt (r : List Token) : Prop := at? "elif" r = false ∧ at? "else" r = false

/-- Whether a token starts a statement. -/
def StartsStmt (t : Token) : Prop :=
  t.kind.isLayout = false ∧ t.is "elif" = false ∧ t.is "else" = false

/-- Any word but `elif` and `else` starts a statement. -/
theorem startsStmt_of_word (hk : t.kind = .name) {w : String} (ht : t.text = w)
    (hw : w ≠ "elif" ∧ w ≠ "else") : StartsStmt t :=
  ⟨by rw [hk]; rfl, is_eq_false (ht ▸ hw.1), is_eq_false (ht ▸ hw.2)⟩

/-- Whether tokens are read as a statement in front of any that can follow it. -/
structure ReadsStmt (ts : List Token) (s : Stmt) : Prop where
  starts : ∃ t ts', ts = t :: ts' ∧ StartsStmt t
  reads (r : List Token) : EndsStmt r → Reads unplacedBlock (statement (ts ++ r)) [s] r

private theorem readsStmt_simple {t₁ : Token} (ht : StartsSimple t) (ht₁ : t₁.kind = .newline)
    (h : ∀ r, Reads Stmt.unplaced (simpleStmt (t :: (ts ++ t₁ :: r))) s (t₁ :: r)) :
    ReadsStmt (t :: (ts ++ [t₁])) s := by
  obtain ⟨hl, hw⟩ := ht
  refine ⟨⟨t, _, rfl, hl, hw "elif" (by decide), hw "else" (by decide)⟩, fun r _ => ?_⟩
  rw [List.cons_append, List.append_assoc]
  refine reads_statement_simple ?_ ?_ (reads_simpleStmts (h r) ht₁)
  · intro hk
    simp [hk, TokenKind.isLayout] at hl
  · intro hk hm
    have hsub : ∀ w ∈ ["if", "for", "while"], w ∈ headWords := by decide
    have := hw t.text (hsub _ hm)
    simp [Token.is, hk] at this

/-- The tokens of a line are those of its marks and its end. -/
theorem spells_line {ms : List Mark}
    (h : ts.map Token.bare = tokensOf ms ++ [layoutToken .newline]) :
    ∃ ts' t, ts = ts' ++ [t] ∧ Spells ts' ms ∧ t.kind = .newline := by
  obtain ⟨ts', ts₁, rfl, hms, h⟩ := List.map_eq_append_iff.1 h
  obtain ⟨t, rfl, ht⟩ := List.map_eq_singleton_iff.1 h
  exact ⟨ts', t, rfl, hms, congrArg Prod.fst ht⟩

private theorem readsStmt_word {w : String} (hw : w ∉ headWords)
    (hs : ∀ t : Token, t.kind = .name → t.text = w → ∃ s', wordStmt? t = some s' ∧ s'.unplaced = s)
    (h : ts.map Token.bare = [(.name, w), layoutToken .newline]) : ReadsStmt ts s := by
  obtain ⟨t, ts₁, rfl, ht, h⟩ := List.map_eq_cons_iff.1 h
  obtain ⟨t₁, rfl, ht₁⟩ := List.map_eq_singleton_iff.1 h
  have hk : t.kind = .name := congrArg Prod.fst ht
  have ht : t.text = w := congrArg Prod.snd ht
  obtain ⟨s', hs', rfl⟩ := hs t hk ht
  have hsimple : StartsSimple t := by
    refine ⟨by rw [hk]; rfl, fun w' hw' => is_eq_false ?_⟩
    rintro rfl
    exact hw (ht ▸ hw')
  have h : ReadsStmt (t :: ([] ++ [t₁])) s'.unplaced :=
    readsStmt_simple hsimple (congrArg Prod.fst ht₁) fun r => reads_simpleStmt_word hs'
  exact h

private theorem StartsAt.readsStmt {t₁ : Token} (hs : StartsAt 13 ts) (ht₁ : t₁.kind = .newline)
    (h : ∀ t ts', ts = t :: ts' → wordStmt? t = none →
      ∀ r, Reads Stmt.unplaced (simpleStmt (ts ++ t₁ :: r)) s (t₁ :: r)) :
    ReadsStmt (ts ++ [t₁]) s := by
  obtain ⟨t, ts', rfl, ho⟩ := hs
  exact readsStmt_simple (startsSimple_of_opening ho) ht₁
    (h t ts' rfl (wordStmt?_of_opening ho))

private theorem updateOp?_of_newline (ht : t.kind = .newline) : updateOp? (t :: r) = none := by
  rw [updateOp?, List.find?_eq_none]
  intro op _
  rw [at?_cons, is_eq_false_of_isLayout (by rw [ht]; rfl)]
  simp

/-- Values end at an operator that joins nothing. -/
theorem reads_values_op (h : ReadsAt 13 ts e) (hk : t.kind = .op) {w : String} (ht : t.text = w)
    (hw : joint w = 14 ∧ w ≠ ",") :
    Reads unplaced (sequence .values (ts ++ t :: r)) e (t :: r) := by
  refine reads_values h (.cons ?_) ?_
  · rw [jointOf_of_is (is_of_op hk ht), hw.1]
    decide
  · exact (at?_cons "," t r).trans (is_eq_false (ht ▸ hw.2))

private theorem reads_values_layout (h : ReadsAt 13 ts e) (ht : t.kind.isLayout = true) :
    Reads unplaced (sequence .values (ts ++ t :: r)) e (t :: r) :=
  reads_values h (stops_of_isLayout ht (by decide)) (is_eq_false_of_isLayout ht ",")

/-- An expression with the end of its line is a statement. -/
theorem readsStmt_expr (h : ReadsAt 13 ts e) (ht : t.kind = .newline) :
    ReadsStmt (ts ++ [t]) (.expr .none e) := by
  have hl : t.kind.isLayout = true := by rw [ht]; rfl
  refine h.starts.readsStmt ht ?_
  rintro t₁ ts' rfl hw r
  exact reads_simpleStmt_expr hw (reads_values_layout h hl)
    (eat?_of_at? (is_eq_false_of_isLayout hl "=")) (updateOp?_of_newline ht)

private theorem reads_assigned_targets (hf : ∀ x, fractions x = true → x.IsWritten)
    {targets : List Expr}
    (htargets : ∀ e ∈ targets, e.isOperand fractions = true) (hv : e.isOperand fractions = true)
    (ht : t.is "=" = true) (ht' : t'.kind = .newline) {n : Nat}
    (hts : Spells ts (targets.flatMap (fun t => t.layout n ++ [.blank, .operator "=", .blank]) ++
      e.layout n)) :
    Reads (List.map unplaced) (assigned (t :: (ts ++ t' :: r)))
      (targets.map unplaced ++ [e.unplaced]) (t' :: r) := by
  have hl : t'.kind.isLayout = true := by rw [ht']; rfl
  induction targets generalizing t ts with
  | nil =>
    exact reads_assigned_cons ht (reads_values_layout (readsAt_of_isOperand hf hv hts) hl)
      (reads_assigned_nil (eat?_of_at? (is_eq_false_of_isLayout hl "=")))
  | cons target targets ih =>
    rw [List.flatMap_cons, List.append_assoc, List.append_assoc] at hts
    obtain ⟨ts₁, ts₂, rfl, hts₁, hts₂⟩ := spells_append hts
    have he : (Mark.operator "=").tokens = [(.op, "=")] := by decide
    obtain ⟨t₁, ts₃, rfl, hk, htext, hts₃⟩ := spells_token he (spells_silent rfl hts₂)
    have h := readsAt_of_isOperand hf (htargets target List.mem_cons_self) hts₁
    have hrest := ih (fun e he => htargets e (List.mem_cons_of_mem _ he)) (is_of_op hk htext)
      (spells_silent rfl hts₃)
    rw [List.append_assoc, List.map_cons, List.cons_append]
    exact reads_assigned_cons ht (reads_values_op h hk htext (by decide)) hrest

private theorem readsStmt_assign (hf : ∀ x, fractions x = true → x.IsWritten) {targets : List Expr}
    (hne : targets ≠ []) (htargets : ∀ e ∈ targets, e.isOperand fractions = true)
    (hv : e.isOperand fractions = true) (ht : t.kind = .newline) {n : Nat}
    (hts : Spells ts (targets.flatMap (fun t => t.layout n ++ [.blank, .operator "=", .blank]) ++
      e.layout n)) :
    ReadsStmt (ts ++ [t]) (.assign .none (targets.map unplaced) e.unplaced) := by
  obtain ⟨target, targets, rfl⟩ := List.exists_cons_of_ne_nil hne
  rw [List.flatMap_cons, List.append_assoc, List.append_assoc] at hts
  obtain ⟨ts₁, ts₂, rfl, hts₁, hts₂⟩ := spells_append hts
  have he : (Mark.operator "=").tokens = [(.op, "=")] := by decide
  obtain ⟨t₁, ts₃, rfl, hk, htext, hts₃⟩ := spells_token he (spells_silent rfl hts₂)
  have h := readsAt_of_isOperand hf (htargets target List.mem_cons_self) hts₁
  refine (h.starts.append _).readsStmt ht ?_
  intro t₂ ts₄ he hw r
  have hrest := reads_assigned_targets (r := r) hf
    (fun e he => htargets e (List.mem_cons_of_mem _ he)) hv (is_of_op hk htext) ht
    (spells_silent rfl hts₃)
  have hfirst := reads_values_op (r := ts₃ ++ t :: r) h hk htext (by decide)
  have happ : ts₁ ++ t₁ :: ts₃ ++ t :: r = t₂ :: (ts₄ ++ t :: r) := by rw [he, List.cons_append]
  rw [happ]
  refine reads_simpleStmt_assign hw ?_ hrest
  rw [← happ, List.append_assoc]
  exact hfirst

private theorem updateOp?_of_is {op : BinOp} (hk : t.kind = .op)
    (ht : t.text = op.spelling ++ "=") :
    updateOp? (t :: r) = some op := by
  have his (w : String) : t.is w = (op.spelling ++ "=" == w) := by simp [Token.is, hk, ht]
  simp only [updateOp?, at?_cons, his]
  cases op <;> rfl

private theorem readsStmt_update (hf : ∀ x, fractions x = true → x.IsWritten) (op : BinOp)
    (h : e.isOperand fractions = true) (hv : e₁.isOperand fractions = true)
    (ht : t.kind = .newline) {n : Nat}
    (hts : Spells ts (e.layout n ++ .blank :: .operator (op.spelling ++ "=") :: .blank ::
      e₁.layout n)) :
    ReadsStmt (ts ++ [t]) (.update .none e.unplaced op e₁.unplaced) := by
  have hl : t.kind.isLayout = true := by rw [ht]; rfl
  obtain ⟨ts₁, ts₂, rfl, hts₁, hts₂⟩ := spells_append hts
  have he : (Mark.operator (op.spelling ++ "=")).tokens = [(.op, op.spelling ++ "=")] := by
    cases op <;> decide
  obtain ⟨t₁, ts₃, rfl, hk, htext, hts₃⟩ := spells_token he (spells_silent rfl hts₂)
  have h := readsAt_of_isOperand hf h hts₁
  have hv := readsAt_of_isOperand hf hv (spells_silent rfl hts₃)
  have hj : joint (op.spelling ++ "=") = 14 ∧ op.spelling ++ "=" ≠ "," ∧
      op.spelling ++ "=" ≠ "=" := by cases op <;> decide
  refine (h.starts.append _).readsStmt ht ?_
  intro t₂ ts₄ he hw r
  have hfirst := reads_values_op (r := ts₃ ++ t :: r) h hk htext ⟨hj.1, hj.2.1⟩
  have happ : ts₁ ++ t₁ :: ts₃ ++ t :: r = t₂ :: (ts₄ ++ t :: r) := by rw [he, List.cons_append]
  rw [happ]
  refine reads_simpleStmt_update hw ?_ (is_eq_false (by rw [htext]; exact hj.2.2))
    (updateOp?_of_is hk htext) (reads_values_layout hv hl)
  rw [← happ, List.append_assoc]
  exact hfirst

/-- The tokens of a comment are read as the call that stands for it. -/
theorem readsAt_comment {text : String} (hts : Spells ts [.comment text]) :
    ReadsAt 1 ts (.call .none (.name .none commentName) [.const .none (.str text)]) := by
  obtain ⟨t₁, ts₁, rfl, h₁, hts₁⟩ := List.map_eq_cons_iff.1 hts
  obtain ⟨t₂, ts₂, rfl, h₂, hts₂⟩ := List.map_eq_cons_iff.1 hts₁
  obtain ⟨t₃, ts₃, rfl, h₃, hts₃⟩ := List.map_eq_cons_iff.1 hts₂
  obtain ⟨t₄, rfl, h₄⟩ := List.map_eq_singleton_iff.1 hts₃
  simp only [Token.bare, Prod.mk.injEq] at h₁ h₂ h₃ h₄
  have hstr : ReadsAt 0 [t₃] (.const .none (.str text)) := by
    refine Expr.readsAt_str h₃.1 ?_
    rw [h₃.2, Literal.unquote, String.toList_ofList, List.drop_one, List.tail_cons,
      List.dropLast_concat, Literal.unescape_quoteComment, String.ofList_toList]
  have hclose : t₄.is ")" = true := is_of_op h₄.1 h₄.2
  refine ⟨⟨t₁, _, rfl, by rw [h₁.1, h₁.2]; decide⟩, fun r e' r' hr hgo => ?_⟩
  have hname := reads_atom_name (r := t₂ :: t₃ :: t₄ :: r) h₁.1 (by rw [h₁.2]; decide)
  rw [h₁.2] at hname
  refine reads_primary hname fun a ha => ?_
  have harguments : Reads (List.map unplaced) (arguments ")" (t₃ :: t₄ :: r))
      [.const .none (.str text)] r := by
    refine reads_arguments_last ?_ ?_ (is_eq_false (by rw [h₄.2]; decide)) hclose
    · exact eat?_of_at? (by rw [at?_cons, Token.is, h₃.1]; rfl)
    · exact (hstr.mono (by decide) (Nat.le_refl 13)).read (r := t₄ :: r)
        (.cons (by rw [jointOf_of_is hclose]; decide))
  exact reads_trailers_call (is_of_op h₂.1 h₂.2) harguments fun a' ha' =>
    hgo a' (by rw [ha', ha])

/-! ## Blocks -/

/-- Whether a statement is read from its tokens. -/
def IsRead (s : Stmt) : Prop :=
  ∀ n ts, ts.map Token.bare = s.tokens n → ReadsStmt ts s.unplaced

/-- Layout can follow a statement. -/
theorem endsStmt_of_isLayout (ht : t.kind.isLayout = true) : EndsStmt (t :: r) :=
  ⟨is_eq_false_of_isLayout ht "elif", is_eq_false_of_isLayout ht "else"⟩

private theorem endsStmt_block (h : ∀ s ∈ b, IsRead s) {n : Nat}
    (hts : ts.map Token.bare = Stmt.blockTokens b n) (ht : t.kind.isLayout = true) :
    EndsStmt (ts ++ t :: r) := by
  cases b with
  | nil =>
    obtain rfl := List.map_eq_nil_iff.1 hts
    exact endsStmt_of_isLayout ht
  | cons s ss =>
    obtain ⟨ts₁, ts₂, rfl, hts₁, -⟩ := List.map_eq_append_iff.1 hts
    obtain ⟨t₁, ts₃, rfl, -, hs⟩ := (h s List.mem_cons_self n ts₁ hts₁).starts
    exact hs

private theorem reads_statements (h : ∀ s ∈ b, IsRead s) {n : Nat}
    (hts : ts.map Token.bare = Stmt.blockTokens b n) {inside : Bool}
    (ht : endsBlock inside t = true) :
    Reads unplacedBlock (statements inside (ts ++ t :: r)) (unplacedBlock b) (t :: r) := by
  have hl : t.kind.isLayout = true := isLayout_of_endsBlock ht
  induction b generalizing ts with
  | nil =>
    obtain rfl := List.map_eq_nil_iff.1 hts
    exact reads_statements_end ht
  | cons s ss ih =>
    obtain ⟨ts₁, ts₂, rfl, hts₁, hts₂⟩ := List.map_eq_append_iff.1 hts
    have hss : ∀ s ∈ ss, IsRead s := fun s he => h s (List.mem_cons_of_mem _ he)
    have hs := h s List.mem_cons_self n ts₁ hts₁
    have hread := hs.reads _ (endsStmt_block (r := r) hss hts₂ hl)
    obtain ⟨t₁, ts₃, rfl, hstart, -⟩ := hs.starts
    rw [List.append_assoc]
    exact reads_statements_cons (not_endsBlock hstart inside) hread (ih hss hts₂)

/-- An indented block is read statement by statement. -/
theorem reads_suite (h : ∀ s ∈ b, IsRead s) {n : Nat}
    (hts : ts.map Token.bare = Stmt.suiteTokens (Stmt.blockTokens b n)) :
    Reads unplacedBlock (block (ts ++ r)) (unplacedBlock b) r := by
  obtain ⟨t₁, ts₁, rfl, h₁, hts₁⟩ := List.map_eq_cons_iff.1 hts
  obtain ⟨t₂, ts₂, rfl, h₂, hts₂⟩ := List.map_eq_cons_iff.1 hts₁
  obtain ⟨ts₃, ts₄, rfl, hts₃, hts₄⟩ := List.map_eq_append_iff.1 hts₂
  obtain ⟨t₃, rfl, h₃⟩ := List.map_eq_singleton_iff.1 hts₄
  have hk : t₃.kind = .dedent := congrArg Prod.fst h₃
  have hend : endsBlock true t₃ = true := by simp [endsBlock, hk]
  rw [List.cons_append, List.cons_append, List.append_assoc]
  exact reads_block (congrArg Prod.fst h₁) (congrArg Prod.fst h₂) (reads_statements h hts₃ hend) hk

/-- An `else` that is no chained `if` is the word, a colon and an indented block. -/
theorem elseTokens_eq {chained : Bool} {n : Nat} (hne : b ≠ [])
    (hc : chained = true → ∀ p test body orelse, b ≠ [.ifElse p test body orelse]) :
    Stmt.elseTokens chained b n = (.name, "else") :: (.op, ":") ::
      Stmt.suiteTokens (Stmt.blockTokens b (n + blockIndent)) := by
  obtain ⟨s, ss, rfl⟩ := List.exists_cons_of_ne_nil hne
  by_cases hi : ∃ p test body orelse, s :: ss = [.ifElse p test body orelse]
  · obtain ⟨p, test, body, orelse, he⟩ := hi
    obtain ⟨rfl, rfl⟩ := List.cons.inj he
    cases chained with
    | true => exact absurd rfl (hc rfl p test body orelse)
    | false => simp [Stmt.elseTokens, Stmt.blockTokens]
  · rw [Stmt.elseTokens, Stmt.blockTokens]
    rintro p test body orelse rfl rfl
    exact hi ⟨p, test, body, orelse, rfl⟩

/-- The tokens of an `else`, or of none, behind a block. -/
theorem reads_else {c : Bool} (h : ∀ s ∈ b, IsRead s)
    (hc : c = true → ∀ p test body orelse, b ≠ [.ifElse p test body orelse]) {n : Nat}
    (hts : ts.map Token.bare = Stmt.elseTokens c b n) (hr : EndsStmt r) :
    Reads unplacedBlock (elseBlock (ts ++ r)) (unplacedBlock b) r ∧
      eat? "elif" (ts ++ r) = none := by
  by_cases hne : b = []
  · subst hne
    rw [Stmt.elseTokens] at hts
    obtain rfl := List.map_eq_nil_iff.1 hts
    exact ⟨reads_elseBlock_none (eat?_of_at? hr.2), eat?_of_at? hr.1⟩
  · rw [elseTokens_eq hne hc] at hts
    obtain ⟨t₁, ts₁, rfl, h₁, hts₁⟩ := List.map_eq_cons_iff.1 hts
    obtain ⟨t₂, ts₂, rfl, h₂, hts₂⟩ := List.map_eq_cons_iff.1 hts₁
    simp only [Token.bare, Prod.mk.injEq] at h₁ h₂
    refine ⟨reads_elseBlock (is_of_name h₁.1 h₁.2) (is_of_op h₂.1 h₂.2) (reads_suite h hts₂), ?_⟩
    exact eat?_of_at? ((at?_cons _ _ _).trans (is_eq_false (by rw [h₁.2]; decide)))

/-- Whether a choice is read from its tokens behind the word that starts it. -/
def IsReadIf (s : Stmt) : Prop :=
  ∀ p test body orelse, s = .ifElse p test body orelse → ∀ w n t ts q r,
    (t :: ts).map Token.bare = Stmt.ifTokens w test body orelse n → EndsStmt r →
      Reads Stmt.unplaced (ifStmt q (ts ++ r)) s.unplaced r

/-- A test ends at a colon. -/
theorem reads_test_colon (h : ReadsAt 13 ts e) (ht : t.is ":" = true) :
    Reads unplaced (test (ts ++ t :: r)) e (t :: r) :=
  h.read (.cons (by rw [jointOf_of_is ht]; decide))

private theorem isReadIf (hf : ∀ x, fractions x = true → x.IsWritten) (p : Pos)
    {body orelse : Block}
    (h : e.isOperand fractions = true) (hne : body ≠ []) (hb : ∀ s ∈ body, IsRead s)
    (ho : ∀ s ∈ orelse, IsRead s ∧ IsReadIf s) : IsReadIf (.ifElse p e body orelse) := by
  rintro p' test body' orelse' he w n t ts q r hts hr
  cases he
  obtain ⟨t', ts', hcons, -, hts⟩ := List.map_eq_cons_iff.1 hts
  obtain ⟨rfl, rfl⟩ := List.cons.inj hcons
  obtain ⟨ts₁, ts₂, rfl, hts₁, hts₂⟩ := List.map_eq_append_iff.1 hts
  obtain ⟨t₁, ts₃, rfl, h₁, hts₃⟩ := List.map_eq_cons_iff.1 hts₂
  obtain ⟨ts₄, ts₅, rfl, hts₄, hts₅⟩ := List.map_eq_append_iff.1 hts₃
  simp only [Token.bare, Prod.mk.injEq] at h₁
  have htest := readsAt_of_isOperand hf h hts₁
  have hcolon := is_of_op h₁.1 h₁.2
  rw [Stmt.bodyTokens_eq hne] at hts₄
  rw [List.append_assoc, List.cons_append, List.append_assoc]
  by_cases hi : ∃ p test body orelse', orelse = [.ifElse p test body orelse']
  · obtain ⟨p₁, test, body₁, orelse₁, rfl⟩ := hi
    rw [Stmt.elseTokens, if_pos rfl] at hts₅
    obtain ⟨t₂, ts₆, rfl, h₂, hts₆⟩ := List.map_eq_cons_iff.1 hts₅
    simp only [Token.bare, Prod.mk.injEq] at h₂
    refine reads_ifStmt_elif q (reads_test_colon htest hcolon) hcolon (reads_suite hb hts₄)
      (is_of_name h₂.1 h₂.2) fun q => ?_
    refine (ho _ List.mem_cons_self).2 p₁ test body₁ orelse₁ rfl "elif" n t₂ ts₆ q r ?_ hr
    rw [List.map_cons, hts₆, Token.bare, h₂.1, h₂.2]
    rfl
  · have helse := reads_else (c := true) (fun s hs => (ho s hs).1)
      (fun _ p test body orelse' he => hi ⟨p, test, body, orelse', he⟩) hts₅ hr
    exact reads_ifStmt q (reads_test_colon htest hcolon) hcolon (reads_suite hb hts₄) helse.2
      helse.1

/-- A statement that can be written is read from its tokens. -/
theorem isRead_of_isWritable (hf : ∀ x, fractions x = true → x.IsWritten)
    (h : s.isWritable fractions = true) : IsRead s := by
  suffices hs : IsRead s ∧ IsReadIf s from hs.1
  induction s using Stmt.partsInduction with
  | assign p targets value =>
    simp only [Stmt.isWritable, Bool.and_eq_true, Expr.areWritable_iff, Bool.not_eq_true',
      List.isEmpty_eq_false_iff] at h
    refine ⟨fun n ts hts => ?_, by rintro _ _ _ _ ⟨⟩⟩
    rw [Stmt.tokens, Stmt.layout] at hts
    · obtain ⟨ts, t, rfl, hts, ht⟩ := spells_line hts
      exact readsStmt_assign hf h.1.1 h.1.2 h.2 ht hts
    all_goals simp
  | update p target op value =>
    simp only [Stmt.isWritable, Bool.and_eq_true] at h
    refine ⟨fun n ts hts => ?_, by rintro _ _ _ _ ⟨⟩⟩
    rw [Stmt.tokens, Stmt.layout] at hts
    · obtain ⟨ts, t, rfl, hts, ht⟩ := spells_line hts
      exact readsStmt_update hf op h.1 h.2 ht hts
    all_goals simp
  | ifElse p test body orelse ihb iho =>
    simp only [Stmt.isWritable, Bool.and_eq_true, Stmt.areWritable_iff, Bool.not_eq_true',
      List.isEmpty_eq_false_iff] at h
    obtain ⟨⟨⟨ht, hne⟩, hb⟩, ho⟩ := h
    have hif := isReadIf hf p ht hne (fun s hs => (ihb s hs (hb s hs)).1)
      fun s hs => iho s hs (ho s hs)
    refine ⟨fun n ts hts => ?_, hif⟩
    obtain ⟨t, ts, rfl, h₁, -⟩ := List.map_eq_cons_iff.1 hts
    simp only [Token.bare, Prod.mk.injEq] at h₁
    refine ⟨⟨t, ts, rfl, startsStmt_of_word h₁.1 h₁.2 (by decide)⟩, fun r hr => ?_⟩
    exact reads_statement_if h₁.1 h₁.2 (hif p test body orelse rfl "if" n t ts t.pos r hts hr)
  | forEach p target iter body orelse ihb iho =>
    simp only [Stmt.isWritable, Bool.and_eq_true, Stmt.areWritable_iff, Bool.not_eq_true',
      List.isEmpty_eq_false_iff] at h
    obtain ⟨⟨⟨⟨⟨ht, htarget⟩, hi⟩, hne⟩, hb⟩, ho⟩ := h
    refine ⟨fun n ts hts => ?_, by rintro _ _ _ _ ⟨⟩⟩
    obtain ⟨t, ts, rfl, h₁, hts⟩ := List.map_eq_cons_iff.1 hts
    obtain ⟨ts₁, ts₂, rfl, hts₁, hts⟩ := List.map_eq_append_iff.1 hts
    obtain ⟨t₂, ts₃, rfl, h₂, hts⟩ := List.map_eq_cons_iff.1 hts
    obtain ⟨ts₄, ts₅, rfl, hts₄, hts⟩ := List.map_eq_append_iff.1 hts
    obtain ⟨t₃, ts₆, rfl, h₃, hts⟩ := List.map_eq_cons_iff.1 hts
    obtain ⟨ts₇, ts₈, rfl, hts₇, hts₈⟩ := List.map_eq_append_iff.1 hts
    rw [Stmt.bodyTokens_eq hne] at hts₇
    simp only [Token.bare, Prod.mk.injEq] at h₁ h₂ h₃
    have hin : t₂.is "in" = true := is_of_name h₂.1 h₂.2
    refine ⟨⟨t, _, rfl, startsStmt_of_word h₁.1 h₁.2 (by decide)⟩, fun r hr => ?_⟩
    have helse :=
      reads_else (c := false) (fun s hs => (iho s hs (ho s hs)).1) (by rintro ⟨⟩) hts₈ hr
    have hread := (readsAt_of_isLoopTarget hf ht htarget hts₁).read
      (r := t₂ :: (ts₄ ++ t₃ :: (ts₇ ++ (ts₈ ++ r)))) (.cons (by rw [jointOf_of_is hin]; decide))
    have happ : t :: (ts₁ ++ t₂ :: (ts₄ ++ t₃ :: (ts₇ ++ ts₈))) ++ r =
        t :: (ts₁ ++ t₂ :: (ts₄ ++ t₃ :: (ts₇ ++ (ts₈ ++ r)))) := by simp
    rw [happ]
    refine reads_statement_for h₁.1 h₁.2 (reads_sequence ?_ ?_) hin
      (reads_values_op (readsAt_of_isOperand hf hi hts₄) h₃.1 h₃.2 (by decide))
      (is_of_op h₃.1 h₃.2) (reads_suite (fun s hs => (ihb s hs (hb s hs)).1) hts₇) helse.1
    · rw [item]
      exact hread
    · exact (at?_cons _ _ _).trans (is_eq_false (by rw [h₂.2]; decide))
  | whileDo p test body orelse ihb iho =>
    simp only [Stmt.isWritable, Bool.and_eq_true, Stmt.areWritable_iff, Bool.not_eq_true',
      List.isEmpty_eq_false_iff] at h
    obtain ⟨⟨⟨ht, hne⟩, hb⟩, ho⟩ := h
    refine ⟨fun n ts hts => ?_, by rintro _ _ _ _ ⟨⟩⟩
    obtain ⟨t, ts, rfl, h₁, hts⟩ := List.map_eq_cons_iff.1 hts
    obtain ⟨ts₁, ts₂, rfl, hts₁, hts⟩ := List.map_eq_append_iff.1 hts
    obtain ⟨t₂, ts₃, rfl, h₂, hts⟩ := List.map_eq_cons_iff.1 hts
    obtain ⟨ts₄, ts₅, rfl, hts₄, hts₅⟩ := List.map_eq_append_iff.1 hts
    rw [Stmt.bodyTokens_eq hne] at hts₄
    simp only [Token.bare, Prod.mk.injEq] at h₁ h₂
    have hcolon := is_of_op h₂.1 h₂.2
    refine ⟨⟨t, _, rfl, startsStmt_of_word h₁.1 h₁.2 (by decide)⟩, fun r hr => ?_⟩
    have helse :=
      reads_else (c := false) (fun s hs => (iho s hs (ho s hs)).1) (by rintro ⟨⟩) hts₅ hr
    have happ : t :: (ts₁ ++ t₂ :: (ts₄ ++ ts₅)) ++ r =
        t :: (ts₁ ++ t₂ :: (ts₄ ++ (ts₅ ++ r))) := by simp
    rw [happ]
    exact reads_statement_while h₁.1 h₁.2
      (reads_test_colon (readsAt_of_isOperand hf ht hts₁) hcolon) hcolon
      (reads_suite (fun s hs => (ihb s hs (hb s hs)).1) hts₄) helse.1
  | expr p value =>
    simp only [Stmt.isWritable, Bool.and_eq_true] at h
    refine ⟨fun n ts hts => ?_, by rintro _ _ _ _ ⟨⟩⟩
    rw [Stmt.tokens, Stmt.layout] at hts
    · obtain ⟨ts, t, rfl, hts, ht⟩ := spells_line hts
      cases hc : (Stmt.expr p value).comment? with
      | none =>
        rw [hc] at hts
        exact readsStmt_expr (readsAt_of_isOperand hf h.1 hts) ht
      | some text =>
        rw [hc] at hts
        obtain ⟨q, q', q'', rfl⟩ := Stmt.eq_call_of_comment? hc
        have h := readsStmt_expr ((readsAt_comment hts).mono (by decide) (Nat.le_refl 13)) ht
        simpa [Stmt.unplaced] using h
    all_goals simp
  | pass p =>
    exact ⟨fun n ts hts => readsStmt_word (by decide) (fun t hk ht => ⟨.pass t.pos,
      by simp [wordStmt?, hk, ht], rfl⟩) hts, by rintro _ _ _ _ ⟨⟩⟩
  | breakOut p =>
    exact ⟨fun n ts hts => readsStmt_word (by decide) (fun t hk ht => ⟨.breakOut t.pos,
      by simp [wordStmt?, hk, ht], rfl⟩) hts, by rintro _ _ _ _ ⟨⟩⟩
  | nextRound p =>
    exact ⟨fun n ts hts => readsStmt_word (by decide) (fun t hk ht => ⟨.nextRound t.pos,
      by simp [wordStmt?, hk, ht], rfl⟩) hts, by rintro _ _ _ _ ⟨⟩⟩

/-- A block that can be written is read from the tokens of its layout. -/
theorem ofTokens_layout (hf : ∀ x, fractions x = true → x.IsWritten)
    (h : Block.isWritable fractions b = true)
    (hts : ts.map Token.bare = Stmt.blockTokens b 0 ++ [layoutToken .endMarker]) :
    ∃ b', ofTokens ts = .ok b' ∧ Block.unplaced b' = Block.unplaced b := by
  obtain ⟨ts, ts₁, rfl, hstmts, hts₁⟩ := List.map_eq_append_iff.1 hts
  obtain ⟨t, rfl, ht⟩ := List.map_eq_singleton_iff.1 hts₁
  have hk : t.kind = .endMarker := congrArg Prod.fst ht
  have hend : endsBlock false t = true := by simp [endsBlock, hk]
  obtain ⟨b', hlt, hread, hb'⟩ := reads_statements (r := [])
    (fun s hs => isRead_of_isWritable hf (Stmt.areWritable_iff.1 h s hs)) hstmts hend
  refine ⟨b', ?_, hb'⟩
  rw [ofTokens, hread]
  rfl

end Parser
end ValidUsage
