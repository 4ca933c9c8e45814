import ValidUsage.Proofs.ReadBlocks
import ValidUsage.Proofs.Readers

/-!
# Reading ends

Readers whose calls are cut off at some depth have no outcome where they would go deeper. Each call
is below the one that makes it, so the calls for some tokens are no deeper than forty levels for
each token and another forty: cut off there, a reader reads just what it reads. What it reads is
followed by what is left of its tokens, and no reader goes past the end of the text.
-/

namespace ValidUsage
namespace Parser

namespace Reader

variable {α β : Type}

/-- The readers with calls at most some levels deep. -/
def unroll : Nat → Readers
  | 0 => fun _ _ => none
  | n + 1 => fun g ts => g.step (unroll n) ts

private theorem level_lt (g : Reader α) : g.level < 40 := by
  cases g with
  | operand op => cases op <;> decide
  | joined op => cases op <;> decide
  | binary l => cases l <;> decide
  | tighter l => cases l <;> decide
  | _ => simp [level]

/-- How deep the calls of a reader for some tokens can be. -/
def depth (g : Reader α) (ts : List Token) : Nat := 40 * ts.length + g.level

private theorem Below.depth_lt {g' : Reader β} {g : Reader α} {ts' ts : List Token}
    (h : g'.Below ts' g ts) : g'.depth ts' < g.depth ts := by
  unfold depth
  rcases h with hlt | ⟨rfl, hlt⟩
  · have := g'.level_lt
    omega
  · omega

/-- Calls that are deep enough give what the readers read. -/
theorem unroll_eq_read {n : Nat} {g : Reader α} {ts : List Token} (h : g.depth ts < n) :
    unroll n g ts = g.read ts := by
  induction n generalizing α g ts with
  | zero => omega
  | succ n ih => exact step_eq_read fun g' ts' hb => ih (Nat.lt_of_lt_of_le hb.depth_lt (by omega))

end Reader

/-- Whether some tokens are left of others, and the end of the text is not passed. -/
def Took (ts r : List Token) : Prop := ∃ pre, ts = pre ++ r ∧ ∀ t ∈ pre, t.kind ≠ .endMarker

/-- Whether an outcome leaves some of the tokens, and the end of the text is not passed. -/
def Takes {α : Type} (ts : List Token) (x : Outcome (α × List Token)) : Prop :=
  ∀ v r, x.run = some (.ok (v, r)) → Took ts r

section Took

variable {ts r r' : List Token} {t : Token} {text : String}

/-- Nothing may be taken. -/
theorem Took.refl (ts : List Token) : Took ts ts := ⟨[], rfl, nofun⟩

/-- What is left of tokens that are left is left of all. -/
theorem Took.trans (h : Took ts r) (h' : Took r r') : Took ts r' := by
  obtain ⟨pre, rfl, hp⟩ := h
  obtain ⟨pre', rfl, hp'⟩ := h'
  exact ⟨pre ++ pre', (List.append_assoc ..).symm, List.forall_mem_append.2 ⟨hp, hp'⟩⟩

/-- A token that does not end the text may be taken. -/
theorem Took.cons (h : t.kind ≠ .endMarker) (r : List Token) : Took (t :: r) r :=
  ⟨[t], rfl, by simpa using h⟩

private theorem kind_ne_of_is (h : t.is text = true) : t.kind ≠ .endMarker := by
  intro hk
  simp [Token.is, hk] at h

private theorem took_of_eat? {h : r.length < ts.length} (he : eat? text ts = some ⟨r, h⟩) :
    Took ts r := by
  obtain ⟨t, rfl, ht⟩ := eq_cons_of_eat? he
  exact .cons (kind_ne_of_is ht) r

private theorem took_of_expect {h : r.length < ts.length} (he : expect text ts = .ok ⟨r, h⟩) :
    Took ts r := by
  obtain ⟨t, rfl, ht⟩ := eq_cons_of_expect he
  exact .cons (kind_ne_of_is ht) r

private theorem took_of_cmpOp? {op : CmpOp} {h : r.length < ts.length}
    (hc : cmpOp? ts = some ⟨op, r, h⟩) : Took ts r := by
  obtain ⟨pre, rfl, hpre⟩ := words_of_cmpOp? hc
  refine ⟨pre, rfl, fun t ht => ?_⟩
  obtain ⟨text, -, hi⟩ := hpre t ht
  exact kind_ne_of_is hi

private theorem took_of_op? {l : Level} {op : BinOp} (h : l.op? t = some op) (r : List Token) :
    Took (t :: r) r := by
  unfold Level.op? at h
  split at h
  · rename_i hk
    exact .cons (by simp [hk]) r
  · cases h

private theorem took_of_sign? {op : UnaryOp} (h : sign? t = some op) (r : List Token) :
    Took (t :: r) r := by
  unfold sign? at h
  split at h
  · rename_i hk
    exact .cons (by simp [hk]) r
  · cases h

private theorem took_of_wordStmt? {s : Stmt} (h : wordStmt? t = some s) (r : List Token) :
    Took (t :: r) r := by
  unfold wordStmt? at h
  split at h
  · rename_i hk
    exact .cons (by simp [hk]) r
  · cases h

private theorem took_of_updateOp? {op : BinOp} (h : updateOp? ts = some op) : Took ts ts.tail := by
  have hat : at? (op.spelling ++ "=") ts = true := by simpa using List.find?_some h
  cases ts with
  | nil => exact .refl _
  | cons t r => exact .cons (kind_ne_of_is hat) r

private theorem took_strings (ts : List Token) : Took ts (ts.dropWhile (·.kind == .str)) := by
  refine ⟨ts.takeWhile (·.kind == .str), List.takeWhile_append_dropWhile.symm, fun t ht => ?_⟩
  have hk : t.kind = .str := by simpa using List.all_eq_true.1 List.all_takeWhile t ht
  simp [hk]

private theorem took_closeBlock (ts : List Token) : Took ts (closeBlock ts).1 := by
  cases ts with
  | nil => exact .refl _
  | cons t r =>
    simp only [closeBlock]
    split
    · exact .refl _
    · rename_i hk
      exact .cons hk r

end Took

section Takes

variable {α β : Type} {ts r : List Token} {v : α} {x : Outcome (α × List Token)}
  {f : α × List Token → Outcome (β × List Token)}

/-- What is read already takes nothing. -/
theorem Takes.done (v : α) (ts : List Token) :
    Takes ts (pure (v, ts) : Outcome (α × List Token)) := by
  intro v' r hv
  cases hv
  exact .refl _

/-- A fault leaves no tokens. -/
theorem Takes.fail (fault : SyntaxFault) (ts' : List Token) :
    Takes ts (liftM (Parser.fail fault ts') : Outcome (α × List Token)) :=
  fun _ _ => nofun

/-- Nor does what is no expression. -/
theorem Takes.invalid (ts' : List Token) :
    Takes ts (liftM (Parser.invalid ts') : Outcome (α × List Token)) := .fail _ ts'

/-- What is left of tokens that are left is left of all. -/
theorem Takes.after (h : Took ts r) (hx : Takes r x) : Takes ts x :=
  fun v r' hv => h.trans (hx v r' hv)

/-- Two steps leave some of the tokens when each of them does. -/
theorem Takes.bind (hx : Takes ts x) (hf : ∀ v r, Took ts r → Takes ts (f (v, r))) :
    Takes ts (x >>= f) := by
  intro v r hv
  match x, hx, hv with
  | some (.ok (a, r')), hx, hv => exact hf a r' (hx a r' rfl) v r hv

/-- Reading goes on where another reader has stopped. -/
theorem Takes.andThen (hx : Takes ts x) (hf : ∀ v r, Takes r (f (v, r))) : Takes ts (x >>= f) :=
  hx.bind fun v r h => (hf v r).after h

/-- A step behind a text that is expected leaves some of the tokens. -/
theorem Takes.expect {text : String}
    {f : { r : List Token // r.length < ts.length } → Outcome (β × List Token)}
    (hf : ∀ r h, Takes r (f ⟨r, h⟩)) : Takes ts ((liftM (expect text ts) : Outcome _) >>= f) := by
  intro v r hv
  cases he : Parser.expect text ts with
  | error e => rw [he] at hv; exact absurd hv nofun
  | ok x =>
    obtain ⟨r', h⟩ := x
    rw [he] at hv
    exact (took_of_expect he).trans (hf r' h v r hv)

end Takes

namespace Reader

/-- Whether calls leave some of their tokens, and the end of the text is not passed. -/
def AllTake (calls : Readers) : Prop :=
  ∀ {α : Type} (g : Reader α) (ts : List Token), Takes ts (calls g ts)

variable {calls : Readers}

private theorem takes_sequence {k : Sequence} (hc : AllTake calls) (ts : List Token) :
    Takes ts ((sequence k).step calls ts) := by
  rw [step]
  refine (hc (item k) ts).andThen fun first r => ?_
  dsimp only
  split
  · exact (hc (items k) r).andThen fun others r' => .done _ r'
  · exact .done _ r

private theorem takes_items {k : Sequence} (hc : AllTake calls) (ts : List Token) :
    Takes ts ((items k).step calls ts) := by
  rw [step]
  split
  · exact .done _ ts
  · rename_i r _ heat
    refine .after (took_of_eat? heat) ?_
    split
    · exact .done _ r
    · exact (hc (item k) r).andThen fun e r' =>
        (hc (items k) r').andThen fun es r'' => .done _ r''

private theorem takes_item {k : Sequence} (hc : AllTake calls) (ts : List Token) :
    Takes ts ((item k).step calls ts) := by
  cases k with
  | values => exact hc test ts
  | targets => exact hc (binary .bitOr) ts
  | indices => exact hc index ts

private theorem takes_index (hc : AllTake calls) (ts : List Token) :
    Takes ts (index.step calls ts) := by
  rw [step]
  split
  · rename_i r _ heat
    exact .after (took_of_eat? heat) ((hc bounds r).andThen fun b r' => .done _ r')
  · refine (hc test ts).andThen fun e r => ?_
    dsimp only
    split
    · exact .done _ r
    · rename_i r' _ heat
      exact .after (took_of_eat? heat) ((hc bounds r').andThen fun b r'' => .done _ r'')

private theorem takes_bounds (hc : AllTake calls) (ts : List Token) :
    Takes ts (bounds.step calls ts) := by
  rw [step]
  refine (hc bound ts).andThen fun upper r => ?_
  dsimp only
  split
  · exact .done _ r
  · rename_i r' _ heat
    exact .after (took_of_eat? heat) ((hc bound r').andThen fun step r'' => .done _ r'')

private theorem takes_bound (hc : AllTake calls) (ts : List Token) :
    Takes ts (bound.step calls ts) := by
  rw [step]
  split
  · exact .done _ ts
  · exact (hc test ts).andThen fun e r => .done _ r

private theorem takes_test (hc : AllTake calls) (ts : List Token) :
    Takes ts (test.step calls ts) := by
  rw [step]
  refine (hc (joined .or) ts).andThen fun body r => ?_
  dsimp only
  split
  · exact .done _ r
  · rename_i r₁ _ heat
    refine .after (took_of_eat? heat) ((hc (joined .or) r₁).andThen fun cond r₂ => ?_)
    exact .expect fun r₃ _ => (hc test r₃).andThen fun orelse r₄ => .done _ r₄

private theorem takes_joined {op : BoolOp} (hc : AllTake calls) (ts : List Token) :
    Takes ts ((joined op).step calls ts) := by
  rw [step]
  refine (hc (operand op) ts).andThen fun first r => ?_
  dsimp only
  split
  · exact (hc (operands op) r).andThen fun others r' => .done _ r'
  · exact .done _ r

private theorem takes_operands {op : BoolOp} (hc : AllTake calls) (ts : List Token) :
    Takes ts ((operands op).step calls ts) := by
  rw [step]
  split
  · exact .done _ ts
  · rename_i r _ heat
    exact .after (took_of_eat? heat) ((hc (operand op) r).andThen fun e r' =>
      (hc (operands op) r').andThen fun es r'' => .done _ r'')

private theorem takes_operand {op : BoolOp} (hc : AllTake calls) (ts : List Token) :
    Takes ts ((operand op).step calls ts) := by
  cases op with
  | or => exact hc (joined .and) ts
  | and => exact hc negation ts

private theorem takes_negation (hc : AllTake calls) (ts : List Token) :
    Takes ts (negation.step calls ts) := by
  rw [step]
  split
  · rename_i r _ heat
    exact .after (took_of_eat? heat) ((hc negation r).andThen fun e r' => .done _ r')
  · exact hc comparison ts

private theorem takes_comparison (hc : AllTake calls) (ts : List Token) :
    Takes ts (comparison.step calls ts) := by
  rw [step]
  refine (hc (binary .bitOr) ts).andThen fun left r => ?_
  refine (hc comparators r).andThen fun ⟨ops, es⟩ r' => ?_
  cases ops <;> exact .done _ r'

private theorem takes_comparators (hc : AllTake calls) (ts : List Token) :
    Takes ts (comparators.step calls ts) := by
  rw [step]
  split
  · exact .done _ ts
  · rename_i op r _ hop
    exact .after (took_of_cmpOp? hop) ((hc (binary .bitOr) r).andThen fun e r' =>
      (hc comparators r').andThen fun c r'' => .done _ r'')

private theorem takes_binary {l : Level} (hc : AllTake calls) (ts : List Token) :
    Takes ts ((binary l).step calls ts) := by
  rw [step]
  exact (hc (tighter l) ts).andThen fun left r => hc (binaryRest l left) r

private theorem takes_tighter {l : Level} (hc : AllTake calls) (ts : List Token) :
    Takes ts ((tighter l).step calls ts) := by
  cases l with
  | bitOr => exact hc (binary .bitXor) ts
  | bitXor => exact hc (binary .bitAnd) ts
  | bitAnd => exact hc (binary .shift) ts
  | shift => exact hc (binary .sum) ts
  | sum => exact hc (binary .product) ts
  | product => exact hc factor ts

private theorem takes_binaryRest {l : Level} {left : Expr} (hc : AllTake calls) (ts : List Token) :
    Takes ts ((binaryRest l left).step calls ts) := by
  cases ts with
  | nil => exact .done _ _
  | cons t r =>
    rw [step]
    split
    · exact .done _ _
    · rename_i op hop
      exact .after (took_of_op? hop r) ((hc (tighter l) r).andThen fun right r' =>
        hc (binaryRest l _) r')

private theorem takes_factor (hc : AllTake calls) (ts : List Token) :
    Takes ts (factor.step calls ts) := by
  cases ts with
  | nil => exact .invalid []
  | cons t r =>
    rw [step]
    split
    · rename_i op hop
      exact .after (took_of_sign? hop r) ((hc factor r).andThen fun e r' => .done _ r')
    · exact hc power _

private theorem takes_power (hc : AllTake calls) (ts : List Token) :
    Takes ts (power.step calls ts) := by
  rw [step]
  refine (hc primary ts).andThen fun base r => ?_
  dsimp only
  split
  · exact .done _ r
  · rename_i r₁ _ heat
    exact .after (took_of_eat? heat) ((hc factor r₁).andThen fun exponent r₂ => .done _ r₂)

private theorem takes_primary (hc : AllTake calls) (ts : List Token) :
    Takes ts (primary.step calls ts) := by
  rw [step]
  exact (hc atom ts).andThen fun e r => hc (trailers e) r

private theorem takes_trailers {e : Expr} (hc : AllTake calls) (ts : List Token) :
    Takes ts ((trailers e).step calls ts) := by
  rw [step]
  split
  · rename_i r _ heat
    exact .after (took_of_eat? heat) ((hc (arguments ")") r).andThen fun args r₁ =>
      hc (trailers _) r₁)
  split
  · rename_i r _ heat
    exact .after (took_of_eat? heat) ((hc (sequence .indices) r).andThen fun i r₁ =>
      .expect fun r₂ _ => hc (trailers _) r₂)
  split
  · exact .invalid []
  · rename_i t r _ heat
    refine .after (took_of_eat? heat) ?_
    split
    · rename_i hk
      exact .after (.cons (by simp [hk.1]) r) (hc (trailers _) r)
    · exact .invalid _
  · exact .done _ ts

private theorem takes_arguments {close : String} (hc : AllTake calls) (ts : List Token) :
    Takes ts ((arguments close).step calls ts) := by
  rw [step]
  split
  · rename_i r _ heat
    exact .after (took_of_eat? heat) (.done _ r)
  · refine (hc test ts).andThen fun e r => ?_
    dsimp only
    split
    · rename_i r₁ _ heat
      exact .after (took_of_eat? heat) ((hc (arguments close) r₁).andThen fun es r₂ => .done _ r₂)
    · exact .expect fun r₁ _ => .done _ r₁

private theorem takes_atom (hc : AllTake calls) (ts : List Token) :
    Takes ts (atom.step calls ts) := by
  cases ts with
  | nil => exact .invalid []
  | cons t r =>
    rw [step]
    split
    · rename_i hk
      have hr : Took (t :: r) r := .cons (by simp [hk]) r
      split_ifs
      · exact .after hr (.done _ r)
      · exact .after hr (.done _ r)
      · exact .after hr (.done _ r)
      · exact .invalid _
      · exact .after hr (.done _ r)
    · rename_i hk
      split
      · exact .after (.cons (by simp [hk]) r) (.done _ r)
      · exact .fail _ _
    · rename_i hk
      exact .after ((Took.cons (by simp [hk]) r).trans (took_strings r)) (.done _ _)
    · rename_i hk
      have hr : Took (t :: r) r := .cons (by simp [hk]) r
      split_ifs
      · split
        · rename_i r₁ _ heat
          exact .after (hr.trans (took_of_eat? heat)) (.done _ r₁)
        · exact .after hr ((hc (sequence .values) r).andThen fun e r₁ =>
            .expect fun r₂ _ => .done _ r₂)
      · exact .after hr ((hc (arguments "]") r).andThen fun es r₁ => .done _ r₁)
      · exact .invalid _
    · exact .invalid _

private theorem takes_assigned (hc : AllTake calls) (ts : List Token) :
    Takes ts (assigned.step calls ts) := by
  rw [step]
  split
  · exact .done _ ts
  · rename_i r _ heat
    exact .after (took_of_eat? heat) ((hc (sequence .values) r).andThen fun e r' =>
      (hc assigned r').andThen fun es r'' => .done _ r'')

private theorem takes_simpleStmt (hc : AllTake calls) (ts : List Token) :
    Takes ts (simpleStmt.step calls ts) := by
  cases ts with
  | nil => exact .invalid []
  | cons t r =>
    rw [step]
    split
    · rename_i s hs
      exact .after (took_of_wordStmt? hs r) (.done _ r)
    · refine (hc (sequence .values) (t :: r)).andThen fun first r₁ => ?_
      -- what follows a single expression is read once more, so `bind` keeps the tokens behind it
      refine (hc assigned r₁).bind fun others r₂ hr₂ => ?_
      dsimp only
      split
      · exact .after hr₂ (.done _ r₂)
      · split
        · exact .done _ r₁
        · rename_i op hop
          exact .after (took_of_updateOp? hop)
            ((hc (sequence .values) r₁.tail).andThen fun value r₃ => .done _ r₃)

private theorem takes_simpleRest (hc : AllTake calls) (ts : List Token) :
    Takes ts (simpleRest.step calls ts) := by
  rw [step]
  split
  · exact .done _ ts
  · rename_i r _ heat
    refine .after (took_of_eat? heat) ?_
    split
    · exact .done _ r
    · exact (hc simpleStmt r).andThen fun s r' =>
        (hc simpleRest r').andThen fun ss r'' => .done _ r''

private theorem takes_simpleStmts (hc : AllTake calls) (ts : List Token) :
    Takes ts (simpleStmts.step calls ts) := by
  rw [step]
  refine (hc simpleStmt ts).andThen fun s r => (hc simpleRest r).andThen fun ss r' => ?_
  cases r' with
  | nil => exact .invalid []
  | cons t r'' =>
    dsimp only
    split
    · rename_i hk
      exact .after (.cons (by simp [hk]) r'') (.done _ r'')
    · exact .invalid _

private theorem takes_statements {inside : Bool} (hc : AllTake calls) (ts : List Token) :
    Takes ts ((statements inside).step calls ts) := by
  cases ts with
  | nil => exact .done _ _
  | cons t r =>
    rw [step]
    split
    · exact .done _ _
    · exact (hc statement _).andThen fun ss r₁ =>
        (hc (statements inside) r₁).andThen fun ss' r₂ => .done _ r₂

private theorem takes_statement (hc : AllTake calls) (ts : List Token) :
    Takes ts (statement.step calls ts) := by
  cases ts with
  | nil => exact .invalid []
  | cons t r =>
    rw [step]
    split_ifs with _ hk hk hk
    · exact .fail _ _
    · exact .after (.cons (by simp [hk.1]) r) ((hc (ifStmt t.pos) r).andThen fun s r' => .done _ r')
    · exact .after (.cons (by simp [hk.1]) r) ((hc (sequence .targets) r).andThen fun target r₁ =>
        .expect fun r₂ _ => (hc (sequence .values) r₂).andThen fun iter r₃ =>
        .expect fun r₄ _ => (hc block r₄).andThen fun body r₅ =>
        (hc elseBlock r₅).andThen fun orelse r₆ => .done _ r₆)
    · exact .after (.cons (by simp [hk.1]) r) ((hc test r).andThen fun cond r₁ =>
        .expect fun r₂ _ => (hc block r₂).andThen fun body r₃ =>
        (hc elseBlock r₃).andThen fun orelse r₄ => .done _ r₄)
    · exact hc simpleStmts _

private theorem takes_ifStmt {pos : Pos} (hc : AllTake calls) (ts : List Token) :
    Takes ts ((ifStmt pos).step calls ts) := by
  rw [step]
  refine (hc test ts).andThen fun cond r₁ => .expect fun r₂ _ => ?_
  refine (hc block r₂).andThen fun body r₃ => ?_
  dsimp only
  split
  · rename_i r₄ _ heat
    exact .after (took_of_eat? heat) ((hc (ifStmt _) r₄).andThen fun s r₅ => .done _ r₅)
  · exact (hc elseBlock r₃).andThen fun orelse r₄ => .done _ r₄

private theorem takes_elseBlock (hc : AllTake calls) (ts : List Token) :
    Takes ts (elseBlock.step calls ts) := by
  rw [step]
  split
  · exact .done _ ts
  · rename_i r _ heat
    exact .after (took_of_eat? heat) (.expect fun r₁ _ => hc block r₁)

private theorem takes_block (hc : AllTake calls) (ts : List Token) :
    Takes ts (block.step calls ts) := by
  rcases ts with _ | ⟨t, _ | ⟨t', r⟩⟩
  · exact .invalid []
  · rw [step]
    split
    · exact .fail _ _
    · exact hc simpleStmts _
  · rw [step]
    split_ifs with hk hk'
    · have hr : Took (t :: t' :: r) r :=
        (Took.cons (by simp [hk]) (t' :: r)).trans (.cons (by simp [hk']) r)
      exact .after hr ((hc (statements true) r).andThen fun b r₁ =>
        .after (took_closeBlock r₁) (.done _ _))
    · exact .fail _ _
    · exact hc simpleStmts _

/-- A reader leaves some of its tokens, and does not pass the end of the text, if what it calls does
so. -/
theorem step_takes (hc : AllTake calls) : AllTake fun g ts => g.step calls ts := by
  intro α g ts
  cases g with
  | sequence k => exact takes_sequence hc ts
  | items k => exact takes_items hc ts
  | item k => exact takes_item hc ts
  | index => exact takes_index hc ts
  | bounds => exact takes_bounds hc ts
  | bound => exact takes_bound hc ts
  | test => exact takes_test hc ts
  | joined op => exact takes_joined hc ts
  | operands op => exact takes_operands hc ts
  | operand op => exact takes_operand hc ts
  | negation => exact takes_negation hc ts
  | comparison => exact takes_comparison hc ts
  | comparators => exact takes_comparators hc ts
  | binary l => exact takes_binary hc ts
  | tighter l => exact takes_tighter hc ts
  | binaryRest l left => exact takes_binaryRest hc ts
  | factor => exact takes_factor hc ts
  | power => exact takes_power hc ts
  | primary => exact takes_primary hc ts
  | trailers e => exact takes_trailers hc ts
  | arguments close => exact takes_arguments hc ts
  | atom => exact takes_atom hc ts
  | assigned => exact takes_assigned hc ts
  | simpleStmt => exact takes_simpleStmt hc ts
  | simpleRest => exact takes_simpleRest hc ts
  | simpleStmts => exact takes_simpleStmts hc ts
  | statements inside => exact takes_statements hc ts
  | statement => exact takes_statement hc ts
  | ifStmt pos => exact takes_ifStmt hc ts
  | elseBlock => exact takes_elseBlock hc ts
  | block => exact takes_block hc ts

private theorem unroll_takes (n : Nat) : AllTake (unroll n) := by
  induction n with
  | zero => exact fun _ _ _ _ => nofun
  | succ n ih => exact step_takes ih

/-- Whatever the tokens are, a reader leaves some of them and does not pass the end of the text. -/
theorem read_takes {α : Type} (g : Reader α) (ts : List Token) : Takes ts (g.read ts) := by
  rw [← unroll_eq_read (Nat.lt_succ_self (g.depth ts))]
  exact unroll_takes _ g ts

end Reader

/-- Tokens that are left of others where reading stops, at the end of the text: all that is left is
that end. -/
theorem Took.eq_end {front r : List Token} {e : Token} (h : Took (front ++ [e]) r)
    (he : e.kind = .endMarker) (hfront : ∀ t ∈ front, t.kind ≠ .endMarker)
    (hr : ∀ t ∈ r.head?, t.kind = .endMarker) : r = [e] := by
  obtain ⟨pre, happ, hpre⟩ := h
  cases r with
  | nil =>
    rw [List.append_nil] at happ
    exact absurd he (hpre e (happ ▸ List.mem_append_right _ List.mem_cons_self))
  | cons t r =>
    obtain ⟨us, rfl, hus⟩ | ⟨us, rfl, hus⟩ := List.append_eq_append_iff.1 happ
    · cases us with
      | nil => simpa using hus.symm
      | cons u us =>
        obtain ⟨rfl, -⟩ := List.cons.inj hus
        exact absurd he (hpre _ (by simp))
    · cases us with
      | nil => simpa using hus
      | cons u us =>
        obtain ⟨rfl, -⟩ := List.cons.inj hus
        exact absurd (hr _ rfl) (hfront _ (by simp))

/-- Reading ends with a block or a fault on all tokens with the end of the text behind them, well
nested or not. A reader only calls for fewer tokens than its own, or for the same tokens and
tighter: whatever other calls come to, it reads the same, even if they do not end. So it reads the
same with calls that are cut off at forty levels for each token and another forty. When a block is
read, the end of the text is all that is left. -/
theorem ofTokens_ends (front : List Token) (e : Token)
    (hfront : ∀ t ∈ front, t.kind ≠ .endMarker) (he : e.kind = .endMarker) :
    (∀ {α : Type} (calls : Readers) (g : Reader α) (ts : List Token),
      g.Meets calls ts → g.step calls ts = g.read ts) ∧
    ((∃ b h, ofTokens (front ++ [e]) = .ok b ∧
        statements false (front ++ [e]) = .ok ⟨b, [e], h⟩ ∧
        (Reader.unroll (40 * front.length + 80) (.statements false) (front ++ [e])).run =
          some (.ok (b, [e]))) ∨
      ∃ err, ofTokens (front ++ [e]) = .error err ∧
        (Reader.unroll (40 * front.length + 80) (.statements false) (front ++ [e])).run =
          some (.error err)) := by
  refine ⟨fun calls g ts => Reader.step_eq_read, ?_⟩
  have hdepth : (Reader.statements false).depth (front ++ [e]) < 40 * front.length + 80 := by
    simp only [Reader.depth, Reader.level, List.length_append, List.length_singleton]
    omega
  rw [Reader.unroll_eq_read hdepth]
  have htakes := Reader.read_takes (.statements false) (front ++ [e])
  simp only [Reader.read, ofTokens] at htakes ⊢
  cases hread : statements false (front ++ [e]) with
  | error err => exact .inr ⟨err, rfl, rfl⟩
  | ok x =>
    obtain ⟨b, r, h⟩ := x
    have hend : ∀ t ∈ r.head?, t.kind = .endMarker := fun t ht => by
      simpa [endsBlock] using ends_of_statements _ hread t ht
    rw [hread] at htakes
    obtain rfl := (htakes b r rfl).eq_end he hfront hend
    exact .inl ⟨b, h, rfl, rfl, rfl⟩

/-- The tokens of `a = 1` are read, and those of `a(]` are not: the second bracket is misplaced. -/
theorem ofTokens_ends_assignment_bracket :
    ofTokens ([⟨.name, "a", .none⟩, ⟨.op, "=", .none⟩, ⟨.number, "1", .none⟩,
        ⟨.newline, "", .none⟩] ++ [⟨.endMarker, "", .none⟩]) =
      .ok [.assign .none [.name .none "a"] (.const .none (.int 1))] ∧
    ofTokens ([⟨.name, "a", .none⟩, ⟨.op, "(", .none⟩, ⟨.op, "]", .none⟩,
        ⟨.newline, "", .none⟩] ++ [⟨.endMarker, "", .none⟩]) = .error ⟨.token, .none⟩ := by
  constructor
  · obtain ⟨b, h, hb, -, hrun⟩ | ⟨err, -, hrun⟩ := (ofTokens_ends [⟨.name, "a", .none⟩,
      ⟨.op, "=", .none⟩, ⟨.number, "1", .none⟩, ⟨.newline, "", .none⟩] ⟨.endMarker, "", .none⟩
      (by decide) rfl).2
    · cases hrun
      exact hb
    · cases hrun
  · obtain ⟨b, h, -, -, hrun⟩ | ⟨err, herr, hrun⟩ := (ofTokens_ends [⟨.name, "a", .none⟩,
      ⟨.op, "(", .none⟩, ⟨.op, "]", .none⟩, ⟨.newline, "", .none⟩] ⟨.endMarker, "", .none⟩
      (by decide) rfl).2
    · cases hrun
    · cases hrun
      exact herr

end Parser
end ValidUsage
