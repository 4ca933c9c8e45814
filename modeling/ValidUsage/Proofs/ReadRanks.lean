import ValidUsage.Proofs.ReadTokens

/-!
# Ranks of readers

The readers of expressions have ranks, the tightest reader the least one. What an expression is read
by depends on its own rank, and on two things about the tokens around it: the first of its own must
not be one at which a tighter reader gives up, and the first behind it must not be one at which the
reader would go on. Parentheses stand just where a rank is too high.
-/

namespace ValidUsage
namespace Parser

open ValidUsage.Expr (unplaced)

/-- The readers of expressions by rank. -/
def reader : Nat → (ts : List Token) → Parse Expr ts.length
  | 0 => atom
  | 1 => primary
  | 2 => factor
  | 3 => binary .product
  | 4 => binary .sum
  | 5 => binary .shift
  | 6 => binary .bitAnd
  | 7 => binary .bitXor
  | 8 => binary .bitOr
  | 9 => comparison
  | 10 => negation
  | 11 => joined .and
  | 12 => joined .or
  | _ => test

/-- The operators and words at which readers go on, with the ranks of these readers. -/
def joints : List (String × Nat) :=
  [("(", 1), ("[", 1), (".", 1), ("**", 2), ("*", 3), ("/", 3), ("//", 3), ("%", 3), ("@", 3),
   ("+", 4), ("-", 4), ("<<", 5), (">>", 5), ("&", 6), ("^", 7), ("|", 8), ("==", 9), ("!=", 9),
   ("<", 9), ("<=", 9), (">", 9), (">=", 9), ("in", 9), ("is", 9), ("not", 9), ("and", 11),
   ("or", 12), ("if", 13)]

/-- The rank of the reader that goes on at an operator or word; of none if it is too large. -/
def joint (text : String) : Nat := (joints.lookup text).getD 14

/-- The rank of the reader that goes on at a token. A string goes on at another one. -/
def jointOf (t : Token) : Nat :=
  match t.kind with
  | .str => 0
  | .op | .name => joint t.text
  | _ => 14

/-- Whether no reader up to a rank goes on at some tokens. -/
def Stops (k : Nat) (r : List Token) : Prop := ∀ t ∈ r.head?, k < jointOf t

/-- Tokens at which no reader up to a rank goes on stop the tighter readers too. -/
theorem Stops.mono {k k' : Nat} {r : List Token} (h : Stops k r) (hk : k' ≤ k) : Stops k' r :=
  fun t ht => Nat.lt_of_le_of_lt hk (h t ht)

/-- A token at which only looser readers go on stops a rank. -/
theorem Stops.cons {k : Nat} {t : Token} {r : List Token} (h : k < jointOf t) :
    Stops k (t :: r) := by
  rintro t' ht
  obtain rfl : t = t' := by simpa using ht
  exact h

/-- The rank of a token is that of its text. -/
theorem jointOf_of_is {t : Token} {text : String} (h : t.is text = true) :
    jointOf t = joint text := by
  simp only [Token.is, Bool.and_eq_true, Bool.or_eq_true, beq_iff_eq] at h
  obtain ⟨hk | hk, rfl⟩ := h <;> simp [jointOf, hk]

/-- Tokens that stop a rank do not start with a text at which a reader of the rank goes on. -/
theorem Stops.is {k : Nat} {t : Token} {r : List Token} {text : String} (h : Stops k (t :: r))
    (ht : joint text ≤ k) : t.is text = false := by
  rw [← Bool.not_eq_true]
  intro hi
  have := h t rfl
  rw [jointOf_of_is hi] at this
  omega

/-- So no such text is taken from them. -/
theorem Stops.eat? {k : Nat} {r : List Token} {text : String} (h : Stops k r)
    (ht : joint text ≤ k) : Parser.eat? text r = none := by
  cases r with
  | nil => rfl
  | cons t r => simp [Parser.eat?, h.is ht]

/-- Nor does one stand at their front. -/
theorem Stops.at? {k : Nat} {r : List Token} {text : String} (h : Stops k r)
    (ht : joint text ≤ k) : Parser.at? text r = false := by
  cases r with
  | nil => rfl
  | cons t r => exact h.is ht

/-- What a level takes for an operator is one of its own, by its spelling. -/
theorem mem_of_op? {l : Level} {t : Token} {op : BinOp} (h : l.op? t = some op) :
    t.kind = .op ∧ op ∈ l.ops ∧ op.spelling = t.text := by
  unfold Level.op? at h
  split at h
  next hk => exact ⟨hk, List.mem_of_find?_eq_some h, by simpa using List.find?_some h⟩
  next => exact absurd h nofun

/-- A level goes on at its operators. -/
theorem joint_of_mem_ops {l : Level} {op : BinOp} (h : op ∈ l.ops) :
    joint op.spelling = l.rank + 3 := by
  revert h
  cases l <;> cases op <;> decide

/-- A level takes each of its operators by its spelling. -/
theorem op?_of_mem_ops {l : Level} {op : BinOp} (h : op ∈ l.ops) {t : Token} (hk : t.kind = .op)
    (ht : t.text = op.spelling) : l.op? t = some op := by
  rw [Level.op?, if_pos hk, ht]
  revert h
  cases l <;> cases op <;> decide

/-- Each operator but the power belongs to a level. -/
theorem exists_level {op : BinOp} (h : op ≠ .pow) : ∃ l : Level, op ∈ l.ops := by
  cases op with
  | pow => exact absurd rfl h
  | mult | div | floorDiv | mod | matMult => exact ⟨.product, by decide⟩
  | add | sub => exact ⟨.sum, by decide⟩
  | lShift | rShift => exact ⟨.shift, by decide⟩
  | bitOr => exact ⟨.bitOr, by decide⟩
  | bitXor => exact ⟨.bitXor, by decide⟩
  | bitAnd => exact ⟨.bitAnd, by decide⟩

/-- Tokens that stop the rank of a level start with no operator of it. -/
theorem Stops.op? {l : Level} {r : List Token} (h : Stops (l.rank + 3) r) :
    ∀ t ∈ r.head?, l.op? t = none := by
  intro t ht
  cases ho : l.op? t with
  | none => rfl
  | some op =>
    obtain ⟨hk, hop, hs⟩ := mem_of_op? ho
    have hj : jointOf t = joint t.text := by simp [jointOf, hk]
    have := h t ht
    rw [hj, ← hs, joint_of_mem_ops hop] at this
    omega

/-- Tokens that stop the rank of comparisons start with no operator of a comparison. -/
theorem Stops.cmpOp? {r : List Token} (h : Stops 9 r) : Parser.cmpOp? r = none := by
  cases r with
  | nil => rfl
  | cons t r =>
    have hj := h t rfl
    unfold jointOf at hj
    unfold Parser.cmpOp?
    dsimp only
    split
    all_goals first
      | rfl
      | rename_i hk ht
        simp only [hk, ht] at hj
        exact absurd hj (by decide)

/-- What a reader does behind its first operand; readers that cannot go on do nothing. -/
def goOn : Nat → Expr → (ts : List Token) → Parse Expr (ts.length + 1)
  | 1 => trailers
  | 3 => binaryRest .product
  | 4 => binaryRest .sum
  | 5 => binaryRest .shift
  | 6 => binaryRest .bitAnd
  | 7 => binaryRest .bitXor
  | 8 => binaryRest .bitOr
  | _ => fun a ts => .ok ⟨a, ts, length_lt_succ ts⟩

/-- The rank up to which what follows the first operand of a reader must not go on. -/
def ceiling : Nat → Nat
  | 1 => 0
  | 3 => 2
  | 4 => 3
  | 5 => 4
  | 6 => 5
  | 7 => 6
  | 8 => 7
  | k => k

/-- The rank of the tightest reader that a token can start, by its kind and text; too large a one
if it starts no expression. -/
def opening (kind : TokenKind) (text : String) : Nat :=
  match kind with
  | .number | .str => 0
  | .op => if text ∈ ["(", "["] then 0 else if text ∈ ["+", "-", "~"] then 2 else 14
  | .name =>
    if text ∈ ["True", "False", "None"] then 0 else if text = "not" then 10
    else if isIdentifier text then 0 else 14
  | _ => 14

/-- Whether tokens start with one that can start a reader of a rank. -/
def StartsAt (k : Nat) (ts : List Token) : Prop :=
  ∃ t ts', ts = t :: ts' ∧ opening t.kind t.text ≤ k

/-- Whether tokens in front of others are read as an expression by the reader of a rank: whatever
the reader makes of the expression and of what follows, it makes of the tokens. -/
structure ReadsAt (k : Nat) (ts : List Token) (e : Expr) : Prop where
  starts : StartsAt k ts
  reads (r : List Token) (e' : Expr) (r' : List Token) : Stops (ceiling k) r →
    (∀ a, a.unplaced = e → Reads unplaced (goOn k a r) e' r') →
      Reads unplaced (reader k (ts ++ r)) e' r'

/-- No reader goes on in front of tokens that stop it. -/
theorem reads_goOn {k : Nat} {r : List Token} (h : Stops k r) (a : Expr) :
    Reads unplaced (goOn k a r) a.unplaced r := by
  unfold goOn
  split
  · exact reads_trailers_stop (h.eat? (by decide)) (h.eat? (by decide)) (h.eat? (by decide)) a
  · exact reads_binaryRest_stop (Stops.op? (l := .product) h) a
  · exact reads_binaryRest_stop (Stops.op? (l := .sum) h) a
  · exact reads_binaryRest_stop (Stops.op? (l := .shift) h) a
  · exact reads_binaryRest_stop (Stops.op? (l := .bitAnd) h) a
  · exact reads_binaryRest_stop (Stops.op? (l := .bitXor) h) a
  · exact reads_binaryRest_stop (Stops.op? (l := .bitOr) h) a
  · exact ⟨a, length_lt_succ r, rfl, rfl⟩

private theorem ceiling_le (k : Nat) : ceiling k ≤ k := by
  unfold ceiling
  split <;> omega

/-- Tokens that read at a rank are read as their expression in front of others that stop the rank.
-/
theorem ReadsAt.read {k : Nat} {ts r : List Token} {e : Expr} (h : ReadsAt k ts e)
    (hr : Stops k r) : Reads unplaced (reader k (ts ++ r)) e r :=
  h.reads r e r (hr.mono (ceiling_le k)) fun a ha => ha ▸ reads_goOn hr a

/-- A reader that cannot go on reads what it reads up to where it stops. -/
theorem ReadsAt.of_closed {k : Nat} (hk : k ∉ [1, 3, 4, 5, 6, 7, 8]) {ts : List Token} {e : Expr}
    (hs : StartsAt k ts) (h : ∀ r, Stops k r → Reads unplaced (reader k (ts ++ r)) e r) :
    ReadsAt k ts e := by
  refine ⟨hs, fun r e' r' hr hgo => ?_⟩
  have hc : ceiling k = k ∧ goOn k = fun a ts => .ok ⟨a, ts, length_lt_succ ts⟩ := by
    simp only [List.mem_cons, List.not_mem_nil, or_false, not_or] at hk
    unfold ceiling goOn
    constructor
    · split <;> simp_all
    · split <;> simp_all
  rw [hc.1] at hr
  obtain ⟨a, hb, he, ha⟩ := h r hr
  obtain ⟨a', _, he', ha'⟩ := hgo a ha
  rw [hc.2] at he'
  simp only [Except.ok.injEq, Read.mk.injEq] at he'
  obtain ⟨rfl, rfl⟩ := he'
  exact ⟨a, hb, he, ha'⟩

/-- A token that can start a reader can start the looser ones. -/
theorem StartsAt.mono {k k' : Nat} {ts : List Token} (h : StartsAt k ts) (hk : k ≤ k') :
    StartsAt k' ts := by
  obtain ⟨t, ts', he, ht⟩ := h
  exact ⟨t, ts', he, Nat.le_trans ht hk⟩

/-- Whether tokens start a reader does not depend on those behind. -/
theorem StartsAt.append {k : Nat} {ts : List Token} (h : StartsAt k ts) (r : List Token) :
    StartsAt k (ts ++ r) := by
  obtain ⟨t, ts', rfl, ht⟩ := h
  exact ⟨t, ts' ++ r, rfl, ht⟩

/-- An operator or word that starts no reader up to a rank is not what the tokens start with. -/
theorem StartsAt.at? {k : Nat} {ts : List Token} (h : StartsAt k ts) {text : String}
    (ho : k < opening .op text) (hn : k < opening .name text) : Parser.at? text ts = false := by
  obtain ⟨t, ts', rfl, ht⟩ := h
  show t.is text = false
  rw [← Bool.not_eq_true]
  intro hi
  simp only [Token.is, Bool.and_eq_true, Bool.or_eq_true, beq_iff_eq] at hi
  obtain ⟨hk | hk, rfl⟩ := hi
  · rw [hk] at ht
    omega
  · rw [hk] at ht
    omega

/-- A text that does not stand at the front is not taken. -/
theorem eat?_of_at? {text : String} {ts : List Token} (h : Parser.at? text ts = false) :
    Parser.eat? text ts = none := by
  cases ts with
  | nil => rfl
  | cons t ts =>
    have : t.is text = false := h
    simp [Parser.eat?, this]

/-- Tokens that start a reader do not start with a text that opens looser ones only. -/
theorem StartsAt.eat? {k : Nat} {ts : List Token} (h : StartsAt k ts) {text : String}
    (ho : k < opening .op text) (hn : k < opening .name text) : Parser.eat? text ts = none :=
  eat?_of_at? (h.at? ho hn)

private theorem sign?_of_opening {t : Token} (h : opening t.kind t.text ≤ 1) : sign? t = none := by
  unfold sign?
  split
  next hk =>
    rw [hk] at h
    rw [List.find?_eq_none]
    intro op hop
    simp only [beq_iff_eq]
    intro hs
    rw [← hs] at h
    simp only [List.mem_cons, List.not_mem_nil, or_false] at hop
    rcases hop with rfl | rfl | rfl <;> exact absurd h (by decide)
  next => rfl

/-- What starts like a primary is read as a factor if it is read as a power. -/
theorem StartsAt.factor {ts r : List Token} {e : Expr} (h : StartsAt 1 ts)
    (hp : Reads unplaced (power ts) e r) : Reads unplaced (factor ts) e r := by
  obtain ⟨t, ts', rfl, ht⟩ := h
  exact reads_factor (sign?_of_opening ht) hp

/-- The operands of a level are read by the reader of the rank below its own. -/
theorem tighter_eq (l : Level) (ts : List Token) : tighter l ts = reader (l.rank + 2) ts := by
  cases l <;> rw [tighter] <;> rfl

/-- A level is read by the reader of its rank. -/
theorem binary_eq (l : Level) (ts : List Token) : binary l ts = reader (l.rank + 3) ts := by
  cases l <;> rfl

/-- At the rank of a level an expression goes on with the operators of the level. -/
theorem goOn_eq (l : Level) : goOn (l.rank + 3) = binaryRest l := by
  cases l <;> rfl

/-- Behind the first operand of a level nothing goes on up to the rank of its operands. -/
theorem ceiling_eq (l : Level) : ceiling (l.rank + 3) = l.rank + 2 := by
  cases l <;> rfl

/-- What reads at the rank of the operands of a level reads at the rank of the level. -/
theorem ReadsAt.binary {l : Level} {ts : List Token} {e : Expr} (h : ReadsAt (l.rank + 2) ts e) :
    ReadsAt (l.rank + 3) ts e := by
  refine ⟨h.starts.mono (Nat.le_succ _), fun r e' r' hr hgo => ?_⟩
  rw [ceiling_eq] at hr
  rw [goOn_eq] at hgo
  rw [← binary_eq]
  refine reads_binary (e := e) (r := r) ?_ hgo
  rw [tighter_eq]
  exact h.read hr

/-- What the reader of a rank reads is also read by the next one. -/
theorem ReadsAt.succ {k : Nat} {ts : List Token} {e : Expr} (h : ReadsAt k ts e) (hk : k < 13) :
    ReadsAt (k + 1) ts e := by
  match k, hk with
  | 0, _ =>
    exact ⟨h.starts.mono (by decide), fun r e' r' hr hgo => reads_primary (h.read hr) hgo⟩
  | 1, _ =>
    refine .of_closed (by decide) (h.starts.mono (by decide)) fun r hr => ?_
    exact (h.starts.append r).factor (reads_power (h.read (hr.mono (by decide)))
      (hr.eat? (by decide)))
  | 2, _ => exact ReadsAt.binary (l := .product) h
  | 3, _ => exact ReadsAt.binary (l := .sum) h
  | 4, _ => exact ReadsAt.binary (l := .shift) h
  | 5, _ => exact ReadsAt.binary (l := .bitAnd) h
  | 6, _ => exact ReadsAt.binary (l := .bitXor) h
  | 7, _ => exact ReadsAt.binary (l := .bitOr) h
  | 8, _ =>
    refine .of_closed (by decide) (h.starts.mono (by decide)) fun r hr => ?_
    exact reads_comparison (h.read (hr.mono (by decide))) hr.cmpOp?
  | 9, _ =>
    refine .of_closed (by decide) (h.starts.mono (by decide)) fun r hr => ?_
    exact reads_negation ((h.starts.append r).eat? (by decide) (by decide))
      (h.read (hr.mono (by decide)))
  | 10, _ =>
    refine .of_closed (by decide) (h.starts.mono (by decide)) fun r hr => ?_
    have := h.read (hr.mono (by decide))
    refine reads_joined ?_ (hr.at? (by decide))
    rw [operand]
    exact this
  | 11, _ =>
    refine .of_closed (by decide) (h.starts.mono (by decide)) fun r hr => ?_
    have := h.read (hr.mono (by decide))
    refine reads_joined ?_ (hr.at? (by decide))
    rw [operand]
    exact this
  | 12, _ =>
    refine .of_closed (by decide) (h.starts.mono (by decide)) fun r hr => ?_
    exact reads_test (h.read (hr.mono (by decide))) (hr.eat? (by decide))

/-- What reads at a rank reads at the looser ones, up to that of a test. -/
theorem ReadsAt.mono {k k' : Nat} {ts : List Token} {e : Expr} (h : ReadsAt k ts e) (hk : k ≤ k')
    (hk' : k' ≤ 13) : ReadsAt k' ts e := by
  induction hk with
  | refl => exact h
  | step hk ih => exact (ih (by omega)).succ (by omega)

end Parser
end ValidUsage
