import ValidUsage.Proofs.ReadRanks

/-!
# Reading the layout of expressions

The tokens of the layout of an expression are read as the expression, without its positions, by the
reader of its rank and by every looser one.
-/

namespace ValidUsage
namespace Parser

open ValidUsage.Expr (unplaced)

/-! ## Tokens that spell marks -/

/-- Whether tokens are those of marks, wherever they stand. -/
def Spells (ts : List Token) (ms : List Mark) : Prop := ts.map Token.bare = tokensOf ms

private theorem spells_nil {ts : List Token} (h : Spells ts []) : ts = [] :=
  List.map_eq_nil_iff.1 h

/-- Tokens of marks fall apart as the marks do. -/
theorem spells_append {ts : List Token} {ms ms' : List Mark} (h : Spells ts (ms ++ ms')) :
    ∃ ts₁ ts₂, ts = ts₁ ++ ts₂ ∧ Spells ts₁ ms ∧ Spells ts₂ ms' := by
  rw [Spells, tokensOf_append] at h
  exact List.map_eq_append_iff.1 h

/-- A mark without a token may be left out. -/
theorem spells_silent {m : Mark} (hm : m.tokens = []) {ts : List Token} {ms : List Mark}
    (h : Spells ts (m :: ms)) : Spells ts ms := by
  rwa [Spells, tokensOf_cons, hm] at h

/-- A mark of one token stands for the first of the tokens. -/
theorem spells_token {m : Mark} {k : TokenKind} {s : String} (hm : m.tokens = [(k, s)])
    {ts : List Token} {ms : List Mark} (h : Spells ts (m :: ms)) :
    ∃ t ts', ts = t :: ts' ∧ t.kind = k ∧ t.text = s ∧ Spells ts' ms := by
  rw [Spells, tokensOf_cons, hm] at h
  obtain ⟨t, ts', rfl, ht, h⟩ := List.map_eq_cons_iff.1 h
  simp only [Token.bare, Prod.mk.injEq] at ht
  exact ⟨t, ts', rfl, ht.1, ht.2, h⟩

/-- An operator has its text. -/
theorem is_of_op {t : Token} {text : String} (hk : t.kind = .op) (ht : t.text = text) :
    t.is text = true := by
  simp [Token.is, hk, ht]

/-- So has a word. -/
theorem is_of_name {t : Token} {text : String} (hk : t.kind = .name) (ht : t.text = text) :
    t.is text = true := by
  simp [Token.is, hk, ht]

/-- A text stands at the front of tokens when it is that of the first one. -/
theorem at?_cons (text : String) (t : Token) (r : List Token) : at? text (t :: r) = t.is text :=
  rfl

/-- A token does not have another text. -/
theorem is_eq_false {t : Token} {text : String} (ht : t.text ≠ text) : t.is text = false := by
  simp [Token.is, ht]

/-- The name of a feature is the same token as any name. -/
theorem tokensOf_named (tf : Bool) (ms : List Mark) :
    tokensOf (Expr.named tf ms) = tokensOf ms := by
  unfold Expr.named
  split
  · cases tf <;> rfl
  · rfl

end Parser

namespace Expr

open ValidUsage.Parser

/-- The rank of the reader that an expression needs when it stands without parentheses. -/
def rank : Expr → Nat
  | boolOp .. | name .. | const .. | tuple .. | list .. => 0
  | call .. | member .. | subscript .. => 1
  | unary _ op _ => if op = .not then 10 else 2
  | binary _ _ op _ => joint op.spelling
  | compare .. => 9
  | ifExp .. => 13
  | slice .. => 14

/-- Operators join at the ranks between a power and a `|`. -/
theorem joint_spelling_bounds (op : BinOp) : 2 ≤ joint op.spelling ∧ joint op.spelling ≤ 8 := by
  cases op <;> decide

private theorem rank_unary_le (p : Pos) (op : UnaryOp) (operand : Expr) :
    (unary p op operand).rank ≤ 10 := by
  rw [rank]
  split <;> decide

/-- All but slices can be read as a test. -/
theorem rank_le {e : Expr} (h : e.isSlice = false) : e.rank ≤ 13 := by
  cases e with
  | unary p op operand => exact Nat.le_trans (rank_unary_le p op operand) (by decide)
  | binary p left op right => exact Nat.le_trans (joint_spelling_bounds op).2 (by decide)
  | slice => exact absurd h nofun
  | _ => simp [rank]

private theorem rank_le_of_wrapsReceiver {e : Expr} (h : e.wrapsReceiver = false) : e.rank ≤ 1 := by
  cases e with
  | unary | binary | compare | ifExp | slice | const => exact absurd h nofun
  | _ => simp [rank]

private theorem rank_le_of_wrapsOperand {e : Expr} (h : e.wrapsOperand = false) : e.rank ≤ 2 := by
  cases e with
  | unary p op operand =>
    have hop : op ≠ .not := by simpa [wrapsOperand] using h
    simp [rank, hop]
  | binary | compare | ifExp | slice => exact absurd h nofun
  | _ => simp [rank]

/-- What stands in a comparison without parentheses can be read as its operand. -/
theorem rank_le_of_wrapsCompared {e : Expr} (h : e.wrapsCompared = false) : e.rank ≤ 8 := by
  cases e with
  | binary p left op right => exact (joint_spelling_bounds op).2
  | _ => exact Nat.le_trans (rank_le_of_wrapsOperand h) (by decide)

private theorem rank_le_of_isChoice {e : Expr} (hs : e.isSlice = false) (h : e.isChoice = false) :
    e.rank ≤ 10 := by
  cases e with
  | unary p op operand => exact rank_unary_le p op operand
  | binary p left op right => exact Nat.le_trans (joint_spelling_bounds op).2 (by decide)
  | ifExp => exact absurd h nofun
  | slice => exact absurd hs nofun
  | _ => simp [rank]

/-- The greatest rank of a left operand without parentheses. -/
def leftRank (op : BinOp) : Nat := if op = .pow then 1 else joint op.spelling

/-- The greatest rank of a right operand without parentheses. -/
def rightRank (op : BinOp) : Nat := if op = .pow then 2 else joint op.spelling - 1

private theorem rank_le_of_wrapsLeft {e : Expr} {op : BinOp} (h : e.wrapsLeft op = false) :
    e.rank ≤ leftRank op := by
  have hpos : 1 ≤ leftRank op := by cases op <;> decide
  cases e with
  | unary p op' operand =>
    have hop : op ≠ .pow ∧ op' ≠ .not := by simpa [wrapsLeft] using h
    simp only [rank, hop.2, if_false, leftRank, hop.1]
    exact (joint_spelling_bounds op).1
  | binary p left op' right =>
    change (!(op'.isAdditive && op.isAdditive ||
      op'.isMultiplicative && (op.isAdditive || op.isMultiplicative))) = false at h
    show joint op'.spelling ≤ leftRank op
    revert h
    cases op' <;> cases op <;> decide
  | compare | ifExp | slice => exact absurd h nofun
  | boolOp | name | const | tuple | list => exact Nat.zero_le _
  | call | member | subscript => exact hpos

private theorem rank_le_of_wrapsRight {e : Expr} {op : BinOp} (h : e.wrapsRight op = false) :
    e.rank ≤ rightRank op := by
  have hpos : 2 ≤ rightRank op := by cases op <;> decide
  cases e with
  | binary p left op' right =>
    change (!(op'.isMultiplicative && op.isAdditive)) = false at h
    show joint op'.spelling ≤ rightRank op
    revert h
    cases op' <;> cases op <;> decide
  | _ => exact Nat.le_trans (rank_le_of_wrapsOperand h) hpos

/-- Whether every layout of an expression is read by the reader of its rank. -/
def IsReadable (e : Expr) : Prop :=
  ∀ (n : Nat) (ts : List Token), Spells ts (e.layout n) → ReadsAt e.rank ts e.unplaced

private theorem readsAt_parens {e : Expr} {t t' : Token} {ts : List Token} (h : ReadsAt 13 ts e)
    (hk : t.kind = .op) (ht : t.text = "(") (hk' : t'.kind = .op) (ht' : t'.text = ")") :
    ReadsAt 0 (t :: (ts ++ [t'])) e := by
  refine .of_closed (by decide) ⟨t, _, rfl, by simp [hk, ht, opening]⟩ fun r hr => ?_
  have hc : Stops 13 (t' :: r) := .cons (by rw [jointOf_of_is (is_of_op hk' ht')]; decide)
  rw [List.cons_append, List.append_assoc]
  refine reads_atom_parens hk ht ((h.starts.append _).eat? (by decide) (by decide))
    (reads_sequence ?_ ?_) (is_of_op hk' ht')
  · rw [item]
    exact h.read hc
  · rw [at?_cons]
    exact is_eq_false (by simp [ht'])

/-- Within parentheses an expression is read at any rank, and without them at its own. -/
theorem IsReadable.wrapped {e : Expr} (h : e.IsReadable) (hs : e.isSlice = false) {w : Bool}
    {k : Nat} (hk : w = false → e.rank ≤ k) (hk' : k ≤ 13) {n : Nat} {ts : List Token}
    (hts : Spells ts (wrapped w n e.layout)) : ReadsAt k ts e.unplaced := by
  cases w with
  | false => exact (h n ts hts).mono (hk rfl) hk'
  | true =>
    obtain ⟨t, ts₁, rfl, hkt, ht, hts₁⟩ := spells_token rfl hts
    obtain ⟨ts₂, ts₃, rfl, hts₂, hts₃⟩ := spells_append hts₁
    obtain ⟨t', ts₄, rfl, hkt', ht', hts₄⟩ := spells_token rfl hts₃
    obtain rfl := spells_nil hts₄
    have hin := (h _ ts₂ hts₂).mono (rank_le hs) (by decide)
    exact (readsAt_parens hin hkt ht hkt' ht').mono (Nat.zero_le k) hk'

private theorem jointOf_op {t : Token} {text : String} (hk : t.kind = .op) (ht : t.text = text) :
    jointOf t = joint text :=
  jointOf_of_is (is_of_op hk ht)

/-- The rank of a word is that of its text. -/
theorem jointOf_name {t : Token} {text : String} (hk : t.kind = .name) (ht : t.text = text) :
    jointOf t = joint text :=
  jointOf_of_is (is_of_name hk ht)

/-! ## Names and literals -/

private theorem isReadable_name (p : Pos) {id : String} (h : isIdentifier id = true) :
    (name p id).IsReadable := by
  intro n ts hts
  obtain ⟨c, cs, hl, hc, hcs, hw⟩ := isIdentifier_iff.1 h
  rw [layout] at hts
  obtain ⟨t, ts, rfl, hk, ht, hts⟩ := spells_token rfl hts
  obtain rfl := spells_nil hts
  subst ht
  show ReadsAt 0 _ _
  refine .of_closed (by decide) ⟨t, [], rfl, ?_⟩ fun r hr => reads_atom_name hk hw
  have h₁ : t.text ∉ ["True", "False", "None"] := by
    intro hm
    simp only [List.mem_cons, List.not_mem_nil, or_false] at hm
    rcases hm with he | he | he <;> rw [he] at hw <;> exact absurd hw (by decide)
  have h₂ : t.text ≠ "not" := by
    intro he
    rw [he] at hw
    exact absurd hw (by decide)
  simp [opening, hk, h₁, h₂, h]

/-- A string that stands alone is read as the literal of what it stands for. -/
theorem readsAt_str {t : Token} (hk : t.kind = .str) {s : String}
    (hs : String.ofList (Literal.unquote t.text.toList) = s) :
    ReadsAt 0 [t] (const .none (.str s)) := by
  refine .of_closed (by decide) ⟨t, [], rfl, by simp [opening, hk]⟩ fun r hr => ?_
  have hr' : ∀ t ∈ r.head?, t.kind ≠ .str := by
    intro t ht he
    have := hr t ht
    simp [jointOf, he] at this
  subst hs
  exact reads_atom_str hk hr'

private theorem isReadable_const {fractions : Binary64 → Bool}
    (hf : ∀ x, fractions x = true → x.IsWritten) (p : Pos) {v : Constant}
    (h : v.isWritable fractions = true) : (const p v).IsReadable := by
  intro n ts hts
  rw [layout] at hts
  show ReadsAt 0 _ _
  cases v with
  | bool b =>
    obtain ⟨t, ts, rfl, hk, ht, hts⟩ :=
      spells_token (k := .name) (s := if b then "True" else "False") (by cases b <;> rfl) hts
    obtain rfl := spells_nil hts
    refine .of_closed (by decide) ⟨t, [], rfl, ?_⟩ fun r hr => reads_atom_bool hk ht
    rw [hk, ht]
    cases b <;> decide
  | int n =>
    obtain ⟨t, ts, rfl, hk, ht, hts⟩ := spells_token rfl hts
    obtain rfl := spells_nil hts
    refine .of_closed (by decide) ⟨t, [], rfl, by simp [opening, hk]⟩ fun r hr =>
      reads_atom_number hk ?_
    rw [ht]
    exact Literal.number?_toString (by simpa [Constant.isWritable] using h)
  | float x =>
    obtain ⟨t, ts, rfl, hk, ht, hts⟩ := spells_token rfl hts
    obtain rfl := spells_nil hts
    refine .of_closed (by decide) ⟨t, [], rfl, by simp [opening, hk]⟩ fun r hr =>
      reads_atom_number hk ?_
    rw [ht]
    exact (hf x h).value
  | str s =>
    have hm : (Constant.mark (.str s)).tokens = [(.str, Literal.quote s)] := by
      simp [Constant.mark, Mark.tokens, Literal.quote]
    obtain ⟨t, ts, rfl, hk, ht, hts⟩ := spells_token hm hts
    obtain rfl := spells_nil hts
    exact readsAt_str hk (by rw [ht, Literal.unquote_quote, String.ofList_toList])
  | none =>
    obtain ⟨t, ts, rfl, hk, ht, hts⟩ := spells_token (k := .name) (s := "None") rfl hts
    obtain rfl := spells_nil hts
    refine .of_closed (by decide) ⟨t, [], rfl, ?_⟩ fun r hr => reads_atom_none hk ht
    rw [hk, ht]
    decide

/-! ## Operators -/

private theorem isReadable_binary (p : Pos) {left right : Expr} (op : BinOp) (hl : left.IsReadable)
    (hr : right.IsReadable) (hsl : left.isSlice = false) (hsr : right.isSlice = false) :
    (binary p left op right).IsReadable := by
  intro n ts hts
  rw [layout] at hts
  obtain ⟨ts₁, ts₂, rfl, hts₁, hts₂⟩ := spells_append hts
  have hop : (Mark.operator op.spelling).tokens = [(.op, op.spelling)] := by cases op <;> decide
  obtain ⟨t, ts₃, rfl, hk, ht, hts₃⟩ := spells_token hop (spells_silent rfl hts₂)
  have hbound : leftRank op ≤ 13 ∧ rightRank op ≤ 13 := by cases op <;> decide
  have hleft := hl.wrapped hsl rank_le_of_wrapsLeft hbound.1 hts₁
  have hright := hr.wrapped hsr rank_le_of_wrapsRight hbound.2 (spells_silent rfl hts₃)
  have hj : jointOf t = joint op.spelling := jointOf_op hk ht
  by_cases hpow : op = .pow
  · subst hpow
    show ReadsAt 2 _ _
    refine .of_closed (by decide) (hleft.starts.append _ |>.mono (by decide)) fun r hr => ?_
    rw [List.append_assoc]
    refine (hleft.starts.append _).factor (reads_power_pow (hleft.read ?_) (is_of_op hk ht)
      (hright.read hr))
    exact .cons (by rw [hj]; decide)
  · obtain ⟨l, hlop⟩ := exists_level hpow
    have hjl := joint_of_mem_ops hlop
    rw [leftRank, if_neg hpow, hjl] at hleft
    rw [rightRank, if_neg hpow, hjl] at hright
    rw [rank, hjl]
    refine ⟨hleft.starts.append _, fun r e' r' hr hgo => ?_⟩
    rw [List.append_assoc]
    refine hleft.reads _ e' r' ?_ fun a ha => ?_
    · rw [ceiling_eq]
      exact .cons (by rw [hj, hjl]; exact Nat.lt_succ_self _)
    · rw [ceiling_eq] at hr
      rw [goOn_eq] at hgo ⊢
      have hnext : Reads unplaced (tighter l (ts₃ ++ r)) right.unplaced r := by
        rw [tighter_eq]
        exact hright.read hr
      refine reads_binaryRest_cons (op?_of_mem_ops hlop hk ht) hnext ?_
      rw [ha]
      exact hgo

private theorem isReadable_unary (p : Pos) {operand : Expr} (op : UnaryOp) (h : operand.IsReadable)
    (hs : operand.isSlice = false) : (unary p op operand).IsReadable := by
  intro n ts hts
  rw [layout] at hts
  by_cases hop : op = .not
  · subst hop
    obtain ⟨t, ts, rfl, hk, ht, hts⟩ := spells_token (k := .name) (s := "not") rfl hts
    have hin := h.wrapped hs (k := 10) (fun hw => Nat.le_trans (rank_le_of_wrapsOperand hw)
      (by decide)) (by decide) (spells_silent rfl hts)
    show ReadsAt 10 _ _
    refine .of_closed (by decide) ⟨t, ts, rfl, by rw [hk, ht]; decide⟩ fun r hr => ?_
    exact reads_negation_not (is_of_name hk ht) (hin.read hr)
  · have htok : (Mark.operator op.spelling).tokens = [(.op, op.spelling)] := by
      cases op <;> first | exact absurd rfl hop | decide
    obtain ⟨t, ts, rfl, hk, ht, hts⟩ := spells_token htok hts
    rw [if_neg hop, List.nil_append] at hts
    have hin := h.wrapped hs rank_le_of_wrapsOperand (by decide) hts
    have hrank : (unary p op operand).rank = 2 := by simp [rank, hop]
    have hsign : sign? t = some op := by
      rw [sign?, if_pos hk, ht]
      cases op <;> first | exact absurd rfl hop | decide
    rw [hrank]
    refine .of_closed (by decide) ⟨t, ts, rfl, ?_⟩ fun r hr => ?_
    · rw [hk, ht]
      cases op <;> first | exact absurd rfl hop | decide
    · exact reads_factor_sign hsign (hin.read hr)

/-! ## Conditions and comparisons -/

/-- The rank of the operands of an operator between conditions. -/
theorem operand_eq (op : BoolOp) (ts : List Token) :
    operand op ts = reader (joint op.spelling - 1) ts := by
  cases op <;> rw [operand] <;> rfl

private theorem joined_eq (op : BoolOp) (ts : List Token) :
    joined op ts = reader (joint op.spelling) ts := by
  cases op <;> rfl

private theorem reads_operands_rest (op : BoolOp) {es : List Expr} (hes : ∀ e ∈ es, e.IsReadable)
    (hs : ∀ e ∈ es, e.isSlice = false) {n : Nat} {ts r : List Token}
    (hts : Spells ts (operands op es n)) (hne : es ≠ [])
    (hr : Stops (joint op.spelling) r) :
    ∃ e es', es = e :: es' ∧ ∃ ts₁ ts₂, ts = ts₁ ++ ts₂ ∧
      ReadsAt (joint op.spelling - 1) ts₁ e.unplaced ∧ Stops (joint op.spelling - 1) (ts₂ ++ r) ∧
      (es' ≠ [] → Parser.at? op.spelling (ts₂ ++ r) = true) ∧
      Reads (List.map unplaced) (Parser.operands op (ts₂ ++ r)) (es'.map unplaced) r := by
  have hrank : 10 ≤ joint op.spelling - 1 ∧ joint op.spelling - 1 ≤ 13 := by cases op <;> decide
  have hop : (Mark.operator op.spelling).tokens = [(.name, op.spelling)] := by
    cases op <;> decide
  induction es generalizing ts with
  | nil => exact absurd rfl hne
  | cons e es ih =>
    have he := hes e List.mem_cons_self
    have hse := hs e List.mem_cons_self
    have hk (hw : e.isChoice = false) : e.rank ≤ joint op.spelling - 1 :=
      Nat.le_trans (rank_le_of_isChoice hse hw) hrank.1
    cases es with
    | nil =>
      refine ⟨e, [], rfl, ts, [], (List.append_nil ts).symm, he.wrapped hse hk hrank.2 hts,
        hr.mono (Nat.sub_le _ _), fun h => absurd rfl h, ?_⟩
      exact reads_operands_nil (hr.eat? (Nat.le_refl _))
    | cons e' es =>
      rw [operands] at hts
      · obtain ⟨ts₁, ts₂, rfl, hts₁, hts₂⟩ := spells_append hts
        obtain ⟨t, ts₃, rfl, hkt, ht, hts₃⟩ := spells_token hop (spells_silent rfl hts₂)
        have hjt : jointOf t = joint op.spelling := jointOf_name hkt ht
        obtain ⟨_, _, heq, ts₄, ts₅, rfl, hr₄, hst, -, hrs⟩ := ih
          (fun e he => hes e (List.mem_cons_of_mem _ he))
          (fun e he => hs e (List.mem_cons_of_mem _ he)) (spells_silent rfl hts₃) (by simp)
        cases heq
        refine ⟨e, e' :: es, rfl, ts₁, _, rfl, he.wrapped hse hk hrank.2 hts₁, ?_, ?_, ?_⟩
        · exact .cons (by rw [hjt]; omega)
        · exact fun _ => is_of_name hkt ht
        · rw [List.cons_append, List.append_assoc]
          refine reads_operands_cons (is_of_name hkt ht) ?_ hrs
          rw [operand_eq]
          exact hr₄.read hst
      · exact nofun

/-- Joined conditions without their parentheses. -/
theorem readsAt_operands (p : Pos) (op : BoolOp) {values : List Expr}
    (h : ∀ e ∈ values, e.IsReadable) (hs : ∀ e ∈ values, e.isSlice = false)
    (hlen : 2 ≤ values.length) {n : Nat} {ts : List Token}
    (hts : Spells ts (operands op values n)) :
    ReadsAt (joint op.spelling) ts (boolOp p op values).unplaced := by
  have hne : values ≠ [] := by
    rintro rfl
    exact absurd hlen (by decide)
  refine .of_closed (by cases op <;> decide) ?_ fun r hr => ?_
  · obtain ⟨_, _, rfl, ts₁, ts₂, rfl, hr₁, -⟩ :=
      reads_operands_rest op h hs hts hne (r := []) nofun
    exact (hr₁.starts.append _).mono (Nat.sub_le _ _)
  · obtain ⟨e, es, rfl, ts₁, ts₂, rfl, hr₁, hst, hat, hrs⟩ :=
      reads_operands_rest op h hs hts hne hr
    have hes : es ≠ [] := by
      rintro rfl
      exact absurd hlen (by simp)
    rw [← joined_eq, List.append_assoc, unplaced_boolOp, List.map_cons]
    refine reads_joined_many ?_ (hat hes) hrs
    rw [operand_eq]
    exact hr₁.read hst

private theorem isReadable_boolOp (p : Pos) (op : BoolOp) {values : List Expr}
    (h : ∀ e ∈ values, e.IsReadable) (hs : ∀ e ∈ values, e.isSlice = false)
    (hlen : 2 ≤ values.length) : (boolOp p op values).IsReadable := by
  intro n ts hts
  rw [layout] at hts
  obtain ⟨t, ts₁, rfl, hk, ht, hts₁⟩ := spells_token rfl hts
  obtain ⟨ts₂, ts₃, rfl, hts₂, hts₃⟩ := spells_append hts₁
  obtain ⟨t', ts₄, rfl, hk', ht', hts₄⟩ := spells_token rfl hts₃
  obtain rfl := spells_nil hts₄
  have hin := readsAt_operands p op h hs hlen hts₂
  exact readsAt_parens (hin.mono (by cases op <;> decide) (by decide)) hk ht hk' ht'

private theorem cmpOp?_of_op {op : CmpOp} {t : Token} (hk : t.kind = .op)
    (ht : t.text = op.spelling)
    (hop : op ∈ [CmpOp.eq, .notEq, .lt, .ltE, .gt, .gtE]) (r : List Token) :
    ∃ h, cmpOp? (t :: r) = some ⟨op, r, h⟩ := by
  simp only [List.mem_cons, List.not_mem_nil, or_false] at hop
  rcases hop with rfl | rfl | rfl | rfl | rfl | rfl <;>
    exact ⟨by simp, by simp [cmpOp?, hk, ht, CmpOp.spelling]⟩

private theorem jointOf_cmp {op : CmpOp} {t : Token} (h : t.is op.spelling = true)
    (hop : op ≠ .isNot ∧ op ≠ .notIn) : jointOf t = 9 := by
  rw [jointOf_of_is h]
  cases op <;> first | rfl | exact absurd rfl hop.1 | exact absurd rfl hop.2

/-- The tokens of an operator of a comparison are read as it, in front of an operand. -/
theorem cmpOp?_of_spells {op : CmpOp} {ts : List Token} {ms : List Mark}
    (hts : Spells ts (.operator op.spelling :: ms)) :
    ∃ ts', Spells ts' ms ∧ (∀ r, Stops 8 (ts ++ r)) ∧
      ∀ r, StartsAt 8 (ts' ++ r) → ∃ h, cmpOp? (ts ++ r) = some ⟨op, ts' ++ r, h⟩ := by
  have stops {t : Token} (ht : jointOf t = 9) (ts r : List Token) : Stops 8 (t :: ts ++ r) :=
    .cons (by rw [ht]; decide)
  by_cases hop : op ∈ [CmpOp.eq, .notEq, .lt, .ltE, .gt, .gtE]
  · have htok : (Mark.operator op.spelling).tokens = [(.op, op.spelling)] := by
      revert hop
      cases op <;> decide
    obtain ⟨t, ts', rfl, hk, ht, hts'⟩ := spells_token htok hts
    have hj : jointOf t = 9 := by
      refine jointOf_cmp (is_of_op hk ht) ⟨?_, ?_⟩
      · rintro rfl
        exact absurd hop (by decide)
      · rintro rfl
        exact absurd hop (by decide)
    exact ⟨ts', hts', stops hj ts', fun r _ => cmpOp?_of_op hk ht hop _⟩
  · have hword (w : String) (hw : joint w = 9) {t : Token} (hk : t.kind = .name)
        (ht : t.text = w) : jointOf t = 9 := by rw [jointOf_name hk ht, hw]
    cases op with
    | is =>
      obtain ⟨t, ts', rfl, hk, ht, hts'⟩ := spells_token (k := .name) (s := "is") rfl hts
      refine ⟨ts', hts', stops (hword "is" (by decide) hk ht) ts', fun r hs => ⟨by simp, ?_⟩⟩
      have hn : Parser.eat? "not" (ts' ++ r) = none := hs.eat? (by decide) (by decide)
      simp [cmpOp?, hk, ht, hn]
    | isIn =>
      obtain ⟨t, ts', rfl, hk, ht, hts'⟩ := spells_token (k := .name) (s := "in") rfl hts
      refine ⟨ts', hts', stops (hword "in" (by decide) hk ht) ts', fun r hs => ⟨by simp, ?_⟩⟩
      simp [cmpOp?, hk, ht]
    | isNot =>
      obtain ⟨t, ts', rfl, hk, ht, hts'⟩ := spells_token (m := .keyword "is")
        rfl (show Spells ts (.keyword "is" :: .keyword "not" :: ms) from hts)
      obtain ⟨t', ts'', rfl, hk', ht', hts''⟩ := spells_token (m := .keyword "not") rfl hts'
      refine ⟨ts'', hts'', stops (hword "is" (by decide) hk ht) _, fun r hs =>
        ⟨by simp only [List.length_append, List.length_cons]; omega, ?_⟩⟩
      have hn := is_of_name hk' ht'
      simp [cmpOp?, hk, ht, Parser.eat?, hn]
    | notIn =>
      obtain ⟨t, ts', rfl, hk, ht, hts'⟩ := spells_token (m := .keyword "not")
        rfl (show Spells ts (.keyword "not" :: .keyword "in" :: ms) from hts)
      obtain ⟨t', ts'', rfl, hk', ht', hts''⟩ := spells_token (m := .keyword "in") rfl hts'
      refine ⟨ts'', hts'', stops (hword "not" (by decide) hk ht) _, fun r hs =>
        ⟨by simp only [List.length_append, List.length_cons]; omega, ?_⟩⟩
      have hn := is_of_name hk' ht'
      simp [cmpOp?, hk, ht, Parser.eat?, hn]
    | _ => exact absurd (by decide) hop

private theorem reads_comparators (ops : List CmpOp) {es : List Expr} (hes : ∀ e ∈ es, e.IsReadable)
    (hs : ∀ e ∈ es, e.isSlice = false) (hlen : ops.length = es.length) {n : Nat}
    {ts r : List Token} (hts : Spells ts (comparisons ops es n)) (hr : Stops 9 r) :
    Stops 8 (ts ++ r) ∧
      Reads unplacedChain (comparators (ts ++ r)) (ops, es.map unplaced) r := by
  induction es generalizing ops ts with
  | nil =>
    obtain rfl := List.length_eq_zero_iff.1 hlen
    obtain rfl := spells_nil hts
    exact ⟨hr.mono (by decide), reads_comparators_nil hr.cmpOp?⟩
  | cons e es ih =>
    cases ops with
    | nil => exact absurd hlen nofun
    | cons op ops =>
      rw [comparisons] at hts
      obtain ⟨ts₁, hts₁, hst, hop⟩ := cmpOp?_of_spells (spells_silent rfl hts)
      obtain ⟨ts₂, ts₃, rfl, hts₂, hts₃⟩ := spells_append (spells_silent rfl hts₁)
      obtain ⟨hst₃, hrs⟩ := ih ops (fun e he => hes e (List.mem_cons_of_mem _ he))
        (fun e he => hs e (List.mem_cons_of_mem _ he)) (Nat.succ.inj hlen) hts₃
      have hin := (hes e List.mem_cons_self).wrapped (hs e List.mem_cons_self)
        rank_le_of_wrapsCompared (by decide) hts₂
      obtain ⟨h, hop⟩ := hop r ((hin.starts.append ts₃).append r)
      refine ⟨hst r, reads_comparators_cons hop ?_ hrs⟩
      rw [List.append_assoc]
      exact hin.read hst₃

private theorem isReadable_compare (p : Pos) {left : Expr} {ops : List CmpOp}
    {comparators : List Expr}
    (hl : left.IsReadable) (hsl : left.isSlice = false) (h : ∀ e ∈ comparators, e.IsReadable)
    (hs : ∀ e ∈ comparators, e.isSlice = false) (hne : ops ≠ [])
    (hlen : ops.length = comparators.length) :
    (compare p left ops comparators).IsReadable := by
  intro n ts hts
  rw [layout] at hts
  obtain ⟨ts₁, ts₂, rfl, hts₁, hts₂⟩ := spells_append hts
  have hleft := hl.wrapped hsl rank_le_of_wrapsCompared (by decide) hts₁
  show ReadsAt 9 _ _
  refine .of_closed (by decide) ((hleft.starts.append _).mono (by decide)) fun r hr => ?_
  obtain ⟨hst, hrs⟩ := reads_comparators ops h hs hlen hts₂ hr
  obtain ⟨op, ops, rfl⟩ := List.exists_cons_of_ne_nil hne
  rw [List.append_assoc, unplaced_compare]
  exact reads_comparison_chain (hleft.read hst) hrs

/-! ## Lists of values -/

/-- An argument stands in front of a comma and the others. -/
theorem arguments_cons (tf : Bool) (e e' : Expr) (es : List Expr) (n : Nat) :
    arguments tf (e :: e' :: es) n =
      named tf (layout e n) ++ .comma :: arguments tf (e' :: es) n := by
  rw [arguments]
  rintro ⟨⟩

private theorem spells_named {tf : Bool} {ms : List Mark} {ts : List Token}
    (h : Spells ts (named tf ms)) :
    Spells ts ms := by
  rwa [Spells, tokensOf_named] at h

/-- Values between commas and a closing bracket are read as a list. -/
theorem reads_arguments {close : String} (hclose : close = ")" ∨ close = "]") {tf : Bool}
    {es : List Expr} (hes : ∀ e ∈ es, e.IsReadable) (hs : ∀ e ∈ es, e.isSlice = false) {n : Nat}
    {ts r : List Token} {t : Token} (hts : Spells ts (arguments tf es n)) (hk : t.kind = .op)
    (ht : t.text = close) :
    Reads (List.map unplaced) (Parser.arguments close (ts ++ t :: r)) (es.map unplaced) r := by
  have hj : joint close = 14 ∧ close ≠ "," ∧ 13 < opening .op close ∧ 13 < opening .name close := by
    rcases hclose with rfl | rfl <;> decide
  obtain ⟨hj, hc, ho, hn⟩ := hj
  induction es generalizing ts with
  | nil =>
    obtain rfl := spells_nil hts
    exact reads_arguments_nil (is_of_op hk ht)
  | cons e es ih =>
    have he := hes e List.mem_cons_self
    have hle := rank_le (hs e List.mem_cons_self)
    cases es with
    | nil =>
      have hin := (he n ts (spells_named hts)).mono hle (by decide)
      refine reads_arguments_last ((hin.starts.append _).eat? ho hn) (hin.read ?_)
        (is_eq_false (by rw [ht]; exact hc)) (is_of_op hk ht)
      exact .cons (by rw [jointOf_op hk ht, hj]; decide)
    | cons e' es =>
      rw [arguments_cons] at hts
      obtain ⟨ts₁, ts₂, rfl, hts₁, hts₂⟩ := spells_append hts
      obtain ⟨t', ts₃, rfl, hk', ht', hts₃⟩ := spells_token Mark.tokens_comma hts₂
      have hin := (he n ts₁ (spells_named hts₁)).mono hle (by decide)
      rw [List.append_assoc]
      refine reads_arguments_cons ((hin.starts.append _).eat? ho hn) (hin.read ?_)
        (is_of_op hk' ht') ?_
      · exact .cons (by rw [jointOf_op hk' ht']; decide)
      · exact ih (fun e he => hes e (List.mem_cons_of_mem _ he))
          (fun e he => hs e (List.mem_cons_of_mem _ he)) hts₃

private theorem isReadable_list (p : Pos) {elts : List Expr} (h : ∀ e ∈ elts, e.IsReadable)
    (hs : ∀ e ∈ elts, e.isSlice = false) : (list p elts).IsReadable := by
  intro n ts hts
  rw [layout] at hts
  obtain ⟨t, ts₁, rfl, hk, ht, hts₁⟩ := spells_token rfl hts
  obtain ⟨ts₂, ts₃, rfl, hts₂, hts₃⟩ := spells_append hts₁
  obtain ⟨t', ts₄, rfl, hk', ht', hts₄⟩ := spells_token rfl hts₃
  obtain rfl := spells_nil hts₄
  show ReadsAt 0 _ _
  refine .of_closed (by decide) ⟨t, _, rfl, by rw [hk, ht]; decide⟩ fun r hr => ?_
  rw [List.cons_append, List.append_assoc, unplaced_list]
  exact reads_atom_list hk ht (reads_arguments (.inr rfl) h hs hts₂ hk' ht')

private theorem ends_of_startsAt {ts : List Token} (h : StartsAt 13 ts) (k : Sequence) :
    k.ends ts = false := by
  have hat : ∀ w ∈ [")", "]", "=", ":", ";"], Parser.at? w ts = false := by
    intro w hw
    simp only [List.mem_cons, List.not_mem_nil, or_false] at hw
    rcases hw with rfl | rfl | rfl | rfl | rfl <;> exact h.at? (by decide) (by decide)
  cases k with
  | values =>
    have hk : (peek ts).kind ≠ .newline ∧ (peek ts).kind ≠ .endMarker := by
      obtain ⟨t, ts', rfl, ht⟩ := h
      show t.kind ≠ .newline ∧ t.kind ≠ .endMarker
      constructor
      · intro hk
        simp [hk, opening] at ht
      · intro hk
        simp [hk, opening] at ht
    have hany : [")", "]", "=", ":", ";"].any (peek ts).is = false := by
      rw [← Bool.not_eq_true, List.any_eq_true]
      rintro ⟨w, hw, hi⟩
      have := hat w hw
      rw [Parser.at?, hi] at this
      exact absurd this (by decide)
    simp only [Sequence.ends, hany, hk.1, hk.2, beq_eq_false_iff_ne.2, ne_eq, not_false_eq_true,
      Bool.or_self]
  | targets => exact h.at? (by decide) (by decide)
  | indices => exact hat "]" (by decide)

/-- A value in a list is read as a test. -/
theorem item_values (ts : List Token) : item .values ts = reader 13 ts := by
  rw [item]
  rfl

/-- The values behind the first one of a tuple, up to what closes it. -/
theorem reads_items {es : List Expr} (hes : ∀ e ∈ es, e.IsReadable)
    (hs : ∀ e ∈ es, e.isSlice = false) (hne : es ≠ []) {n : Nat} {ts r : List Token}
    {t t' : Token} (hts : Spells ts (arguments false es n)) (hk : t.kind = .op) (ht : t.text = ",")
    (hk' : t'.kind = .op) (ht' : t'.text = ")") :
    Reads (List.map unplaced) (items .values (t :: (ts ++ t' :: r))) (es.map unplaced)
      (t' :: r) := by
  have hstop : Stops 13 (t' :: r) := .cons (by rw [jointOf_op hk' ht']; decide)
  induction es generalizing ts t with
  | nil => exact absurd rfl hne
  | cons e es ih =>
    have he := hes e List.mem_cons_self
    have hle := rank_le (hs e List.mem_cons_self)
    cases es with
    | nil =>
      have hin := (he n ts (spells_named hts)).mono hle (by decide)
      refine reads_items_cons (is_of_op hk ht) (ends_of_startsAt (hin.starts.append _) _) ?_
        (reads_items_nil (r := t' :: r) ?_)
      · rw [item_values]
        exact hin.read hstop
      · exact eat?_of_at? ((at?_cons _ _ _).trans (is_eq_false (by rw [ht']; decide)))
    | cons e' es =>
      rw [arguments_cons] at hts
      obtain ⟨ts₁, ts₂, rfl, hts₁, hts₂⟩ := spells_append hts
      obtain ⟨t₀, ts₃, rfl, hk₀, ht₀, hts₃⟩ := spells_token Mark.tokens_comma hts₂
      have hin := (he n ts₁ (spells_named hts₁)).mono hle (by decide)
      have hrs := ih (fun e he => hes e (List.mem_cons_of_mem _ he))
        (fun e he => hs e (List.mem_cons_of_mem _ he)) (by simp) hts₃ hk₀ ht₀
      rw [List.append_assoc]
      refine reads_items_cons (is_of_op hk ht) (ends_of_startsAt (hin.starts.append _) _) ?_ hrs
      rw [item_values]
      refine hin.read ?_
      exact .cons (by rw [jointOf_op hk₀ ht₀]; decide)

private theorem isReadable_tuple (p : Pos) {elts : List Expr} (h : ∀ e ∈ elts, e.IsReadable)
    (hs : ∀ e ∈ elts, e.isSlice = false) : (tuple p elts).IsReadable := by
  intro n ts hts
  rw [layout] at hts
  obtain ⟨t, ts₁, rfl, hk, ht, hts₁⟩ := spells_token rfl hts
  show ReadsAt 0 _ _
  refine .of_closed (by decide) ⟨t, _, rfl, by rw [hk, ht]; decide⟩ fun r hr => ?_
  rw [unplaced_tuple]
  cases elts with
  | nil =>
    obtain ⟨t', ts₂, rfl, hk', ht', hts₂⟩ := spells_token rfl hts₁
    obtain rfl := spells_nil hts₂
    exact reads_atom_empty hk ht (is_of_op hk' ht')
  | cons e es =>
    -- the first value and the comma behind it, which also stands behind a single value
    obtain ⟨ts₂, t₀, ts₃, t', rfl, hts₂, hk₀, ht₀, hk', ht', hrs⟩ :
        ∃ ts₂ t₀ ts₃ t', ts₁ = ts₂ ++ t₀ :: (ts₃ ++ [t']) ∧ Spells ts₂ (e.layout n) ∧
          t₀.kind = .op ∧ t₀.text = "," ∧ t'.kind = .op ∧ t'.text = ")" ∧
          ∀ r, Reads (List.map unplaced) (items .values (t₀ :: (ts₃ ++ t' :: r)))
            (es.map unplaced) (t' :: r) := by
      cases es with
      | nil =>
        rw [arguments, if_pos (show [e].length = 1 from rfl), List.append_assoc] at hts₁
        obtain ⟨ts₂, ts₃, rfl, hts₂, hts₃⟩ := spells_append hts₁
        obtain ⟨t₀, ts₄, rfl, hk₀, ht₀, hts₄⟩ := spells_token (m := .plain ",") rfl hts₃
        obtain ⟨t', ts₅, rfl, hk', ht', hts₅⟩ := spells_token rfl hts₄
        obtain rfl := spells_nil hts₅
        refine ⟨ts₂, t₀, [], t', rfl, spells_named hts₂, hk₀, ht₀, hk', ht', fun r => ?_⟩
        exact reads_items_end (is_of_op hk₀ ht₀) (by simp [Sequence.ends, peek, Token.is, hk', ht'])
      | cons e' es =>
        rw [if_neg (by simp), List.append_nil, arguments_cons, List.append_assoc] at hts₁
        obtain ⟨ts₂, ts₃, rfl, hts₂, hts₃⟩ := spells_append hts₁
        obtain ⟨t₀, ts₄, rfl, hk₀, ht₀, hts₄⟩ := spells_token Mark.tokens_comma hts₃
        obtain ⟨ts₅, ts₆, rfl, hts₅, hts₆⟩ := spells_append hts₄
        obtain ⟨t', ts₇, rfl, hk', ht', hts₇⟩ := spells_token rfl hts₆
        obtain rfl := spells_nil hts₇
        refine ⟨ts₂, t₀, ts₅, t', rfl, spells_named hts₂, hk₀, ht₀, hk', ht', fun r => ?_⟩
        exact reads_items (fun e he => h e (List.mem_cons_of_mem _ he))
          (fun e he => hs e (List.mem_cons_of_mem _ he)) (by simp) hts₅ hk₀ ht₀ hk' ht'
    have hin := (h e List.mem_cons_self n ts₂ hts₂).mono (rank_le (hs e List.mem_cons_self))
      (by decide)
    rw [List.cons_append, List.append_assoc]
    refine reads_atom_parens hk ht ((hin.starts.append _).eat? (by decide) (by decide))
      (reads_sequence_tuple (r := t₀ :: (ts₃ ++ t' :: r)) ?_ ?_ (hrs r)) (is_of_op hk' ht')
    · rw [item_values, List.cons_append, List.append_assoc]
      refine hin.read ?_
      exact .cons (by rw [jointOf_op hk₀ ht₀]; decide)
    · exact is_of_op hk₀ ht₀

/-! ## Calls, members and subscripts -/

private theorem tokensOf_arguments (tf : Bool) (es : List Expr) (n : Nat) :
    tokensOf (arguments tf es n) = tokensOf (arguments false es n) := by
  induction es with
  | nil => rfl
  | cons e es ih =>
    cases es with
    | nil => simp only [arguments, tokensOf_named]
    | cons e' es => simp only [arguments_cons, tokensOf_append, tokensOf_cons, tokensOf_named, ih]

private theorem tokensOf_wrapped_arguments (tf : Bool) (w : Bool) (es : List Expr) (n : Nat) :
    tokensOf (wrapped w n (arguments tf es)) = tokensOf (wrapped w n (arguments false es)) := by
  cases w with
  | false => exact tokensOf_arguments tf es n
  | true =>
    simp only [wrapped, if_true, tokensOf_append, tokensOf_cons, tokensOf_arguments tf]

/-- Whatever marks its name has, a call has the tokens of what is called and of its arguments. -/
theorem tokensOf_call (p : Pos) {func : Expr} {args : List Expr} (n : Nat)
    (hattr : ∀ q value attr, func = member q value attr → IsWord attr) :
    tokensOf ((call p func args).layout n) = tokensOf (wrapped func.wrapsReceiver n func.layout ++
      wrapped (!ownParens args) n (arguments false args)) := by
  by_cases hn : ∃ q id, func = name q id
  · obtain ⟨q, id, rfl⟩ := hn
    rw [layout, tokensOf_cons, tokensOf_append, tokensOf_wrapped_arguments]
    show _ = tokensOf ((name q id).layout n) ++ _
    rw [layout]
    split <;> rfl
  · by_cases hm : ∃ q value attr, func = member q value attr
    · obtain ⟨q, value, attr, rfl⟩ := hm
      have ha := tokens_plain (hattr q value attr rfl)
      rw [layout, tokensOf_append, tokensOf_append]
      show _ = tokensOf ((member q value attr).layout n) ++ _
      rw [layout, tokensOf_append, List.append_assoc]
      simp only [tokensOf_cons, ha]
      split
      · rfl
      · rw [ha]
        rfl
    · rw [layout]
      · exact fun q id hq => hn ⟨q, id, hq⟩
      · exact fun q value attr hq => hm ⟨q, value, attr, hq⟩

/-- The arguments of a call behind its opening parenthesis. -/
theorem reads_called {args : List Expr} (h : ∀ e ∈ args, e.IsReadable)
    (hs : ∀ e ∈ args, e.isSlice = false)
    (hin : ∀ p op values, args = [boolOp p op values] → ∀ n ts, Spells ts (operands op values n) →
      ReadsAt (joint op.spelling) ts (boolOp p op values).unplaced) {n : Nat} {ts : List Token}
    (hts : Spells ts (wrapped (!ownParens args) n (arguments false args))) :
    ∃ t ts', ts = t :: ts' ∧ t.is "(" = true ∧ ∀ r,
      Reads (List.map unplaced) (Parser.arguments ")" (ts' ++ r)) (args.map unplaced) r := by
  unfold ownParens at hts
  split at hts
  next p op values =>
    simp only [wrapped, Bool.not_true, Bool.false_eq_true, if_false, arguments] at hts
    have hts := spells_named hts
    rw [layout] at hts
    obtain ⟨t, ts₁, rfl, hk, ht, hts₁⟩ := spells_token rfl hts
    obtain ⟨ts₂, ts₃, rfl, hts₂, hts₃⟩ := spells_append hts₁
    obtain ⟨t', ts₄, rfl, hk', ht', hts₄⟩ := spells_token rfl hts₃
    obtain rfl := spells_nil hts₄
    have hle : joint op.spelling ≤ 13 := by cases op <;> decide
    have hin := (hin p op values rfl _ ts₂ hts₂).mono hle (by decide)
    refine ⟨t, _, rfl, is_of_op hk ht, fun r => ?_⟩
    rw [List.append_assoc]
    refine reads_arguments_last ((hin.starts.append _).eat? (by decide) (by decide)) (hin.read ?_)
      (is_eq_false (by rw [ht']; decide)) (is_of_op hk' ht')
    exact .cons (by rw [jointOf_op hk' ht']; decide)
  next =>
    obtain ⟨t, ts₁, rfl, hk, ht, hts₁⟩ := spells_token rfl hts
    obtain ⟨ts₂, ts₃, rfl, hts₂, hts₃⟩ := spells_append hts₁
    obtain ⟨t', ts₄, rfl, hk', ht', hts₄⟩ := spells_token rfl hts₃
    obtain rfl := spells_nil hts₄
    refine ⟨t, _, rfl, is_of_op hk ht, fun r => ?_⟩
    rw [List.append_assoc]
    exact reads_arguments (.inl rfl) h hs hts₂ hk' ht'

private theorem isReadable_call (p : Pos) {func : Expr} {args : List Expr} (hf : func.IsReadable)
    (hsf : func.isSlice = false)
    (hattr : ∀ q value attr, func = member q value attr → IsWord attr)
    (h : ∀ e ∈ args, e.IsReadable) (hs : ∀ e ∈ args, e.isSlice = false)
    (hin : ∀ p op values, args = [boolOp p op values] → ∀ n ts, Spells ts (operands op values n) →
      ReadsAt (joint op.spelling) ts (boolOp p op values).unplaced) :
    (call p func args).IsReadable := by
  intro n ts hts
  rw [Spells, tokensOf_call p n hattr] at hts
  obtain ⟨ts₁, ts₂, rfl, hts₁, hts₂⟩ := spells_append hts
  have hfunc := hf.wrapped hsf rank_le_of_wrapsReceiver (by decide) hts₁
  obtain ⟨t, ts₃, rfl, ht, hargs⟩ := reads_called h hs hin hts₂
  show ReadsAt 1 _ _
  refine ⟨hfunc.starts.append _, fun r e' r' hr hgo => ?_⟩
  rw [List.append_assoc]
  refine hfunc.reads _ e' r' ?_ fun a ha => ?_
  · exact .cons (by rw [jointOf_of_is ht]; decide)
  · refine reads_trailers_call ht (hargs r) fun a' ha' => hgo a' ?_
    rw [ha', ha, unplaced_call]

private theorem isReadable_member (p : Pos) {value : Expr} {attr : String} (h : value.IsReadable)
    (hs : value.isSlice = false) (ha : isIdentifier attr = true) :
    (member p value attr).IsReadable := by
  intro n ts hts
  rw [layout] at hts
  obtain ⟨ts₁, ts₂, rfl, hts₁, hts₂⟩ := spells_append hts
  obtain ⟨t, ts₃, rfl, hk, ht, hts₃⟩ := spells_token (m := .plain ".") rfl hts₂
  obtain ⟨t', ts₄, rfl, hk', ht', hts₄⟩ := spells_token (tokens_plain (.of_isIdentifier ha)) hts₃
  obtain rfl := spells_nil hts₄
  have hvalue := h.wrapped hs rank_le_of_wrapsReceiver (by decide) hts₁
  have hw : isKeyword t'.text = false := by
    obtain ⟨_, _, -, -, -, hw⟩ := isIdentifier_iff.1 ha
    rw [ht', hw]
  show ReadsAt 1 _ _
  refine ⟨hvalue.starts.append _, fun r e' r' hr hgo => ?_⟩
  rw [List.append_assoc]
  refine hvalue.reads _ e' r' ?_ fun a ha => ?_
  · exact .cons (by rw [jointOf_op hk ht]; decide)
  · refine reads_trailers_member (is_eq_false (by rw [ht]; decide))
      (is_eq_false (by rw [ht]; decide)) (is_of_op hk ht) hk' hw fun a' ha' => hgo a' ?_
    rw [ha', ha, ht', unplaced_member]

/-- Whether the layouts of an expression are read as an index. -/
def IsIndex (e : Expr) : Prop :=
  ∀ (n : Nat) (ts r : List Token) (t : Token), Spells ts (e.layout n) → t.kind = .op →
    t.text = "]" → Reads unplaced (sequence .indices (ts ++ t :: r)) e.unplaced (t :: r)

private theorem isReadable_subscript (p : Pos) {value index : Expr} (h : value.IsReadable)
    (hs : value.isSlice = false) (hi : index.IsIndex) : (subscript p value index).IsReadable := by
  intro n ts hts
  rw [layout] at hts
  obtain ⟨ts₁, ts₂, rfl, hts₁, hts₂⟩ := spells_append hts
  obtain ⟨t, ts₃, rfl, hk, ht, hts₃⟩ := spells_token rfl hts₂
  obtain ⟨ts₄, ts₅, rfl, hts₄, hts₅⟩ := spells_append hts₃
  obtain ⟨t', ts₆, rfl, hk', ht', hts₆⟩ := spells_token rfl hts₅
  obtain rfl := spells_nil hts₆
  have hvalue := h.wrapped hs rank_le_of_wrapsReceiver (by decide) hts₁
  show ReadsAt 1 _ _
  refine ⟨hvalue.starts.append _, fun r e' r' hr hgo => ?_⟩
  rw [List.append_assoc]
  refine hvalue.reads _ e' r' ?_ fun a ha => ?_
  · exact .cons (by rw [jointOf_op hk ht]; decide)
  · rw [List.cons_append, List.append_assoc]
    refine reads_trailers_subscript (is_eq_false (by rw [ht]; decide)) (is_of_op hk ht)
      (hi n ts₄ r t' hts₄ hk' ht') (is_of_op hk' ht') fun a' ha' => hgo a' ?_
    rw [ha', ha, unplaced_subscript]

private theorem isReadable_ifExp (p : Pos) {test body orelse : Expr} (ht : test.IsReadable)
    (hb : body.IsReadable) (ho : orelse.IsReadable) (hst : test.isSlice = false)
    (hsb : body.isSlice = false) (hso : orelse.isSlice = false) :
    (ifExp p test body orelse).IsReadable := by
  intro n ts hts
  rw [layout] at hts
  obtain ⟨ts₁, ts₂, rfl, hts₁, hts₂⟩ := spells_append hts
  obtain ⟨t, ts₃, rfl, hk, hif, hts₃⟩ := spells_token rfl (spells_silent rfl hts₂)
  obtain ⟨ts₄, ts₅, rfl, hts₄, hts₅⟩ := spells_append (spells_silent rfl hts₃)
  obtain ⟨t', ts₆, rfl, hk', helse, hts₆⟩ := spells_token rfl (spells_silent rfl hts₅)
  have choice {e : Expr} (hs : e.isSlice = false) (hw : e.isChoice = false) : e.rank ≤ 12 :=
    Nat.le_trans (rank_le_of_isChoice hs hw) (by decide)
  have hbody := hb.wrapped hsb (choice hsb) (by decide) hts₁
  have htest := ht.wrapped hst (choice hst) (by decide) hts₄
  have horelse := ho.wrapped hso (fun _ => rank_le hso) (by decide) (spells_silent rfl hts₆)
  show ReadsAt 13 _ _
  refine .of_closed (by decide) ((hbody.starts.append _).mono (by decide)) fun r hr => ?_
  rw [List.append_assoc, List.cons_append, List.append_assoc, unplaced_ifExp]
  refine reads_test_choice (hbody.read ?_) (is_of_name hk hif) (htest.read ?_)
    (is_of_name hk' helse) (horelse.read hr)
  · exact .cons (by rw [jointOf_name hk hif]; decide)
  · exact .cons (by rw [jointOf_name hk' helse]; decide)

/-! ## Indices -/

private theorem IsReadable.isIndex {e : Expr} (h : e.IsReadable) (hs : e.isSlice = false) :
    e.IsIndex := by
  intro n ts r t hts hk ht
  have hin := (h n ts hts).mono (rank_le hs) (by decide)
  have hstop : Stops 13 (t :: r) := .cons (by rw [jointOf_op hk ht]; decide)
  have hcolon : Parser.eat? ":" (t :: r) = none :=
    eat?_of_at? ((at?_cons _ _ _).trans (is_eq_false (by rw [ht]; decide)))
  refine reads_sequence ?_ ((at?_cons _ _ _).trans (is_eq_false (by rw [ht]; decide)))
  rw [item]
  exact reads_index ((hin.starts.append _).eat? (by decide) (by decide)) (hin.read hstop) hcolon

/-- A bound of a slice in front of a colon or a closing bracket. -/
theorem reads_bound {o : Option Expr} (h : ∀ e ∈ o, e.IsReadable) (hs : ∀ e ∈ o, e.isSlice = false)
    {n : Nat} {ts r : List Token} {t : Token} (hts : Spells ts (bound [] o n)) (hk : t.kind = .op)
    (ht : t.text = ":" ∨ t.text = "]") :
    Reads (Option.map unplaced) (Parser.bound (ts ++ t :: r)) (o.map unplaced) (t :: r) := by
  have hj : jointOf t = 14 := by
    rcases ht with ht | ht <;> rw [jointOf_op hk ht] <;> decide
  cases o with
  | none =>
    obtain rfl := spells_nil hts
    refine reads_bound_none ?_
    rcases ht with ht | ht <;> simp [at?_cons, is_of_op hk ht]
  | some e =>
    have hin := (h e rfl n ts hts).mono (rank_le (hs e rfl)) (by decide)
    have hst := hin.starts.append (t :: r)
    refine reads_bound_some ?_ (hin.read (.cons (by rw [hj]; decide)))
    rw [hst.at? (by decide) (by decide), hst.at? (by decide) (by decide),
      hst.at? (by decide) (by decide)]
    rfl

private theorem reads_bounds_layout {upper step : Option Expr} (hu : ∀ e ∈ upper, e.IsReadable)
    (hs : ∀ e ∈ step, e.IsReadable) (hsu : ∀ e ∈ upper, e.isSlice = false)
    (hss : ∀ e ∈ step, e.isSlice = false) {n : Nat} {ts r : List Token} {t : Token}
    (hts : Spells ts (bound [] upper n ++ bound [.colon] step n)) (hk : t.kind = .op)
    (ht : t.text = "]") :
    Reads unplacedBounds (bounds (ts ++ t :: r)) (upper.map unplaced, step.map unplaced)
      (t :: r) := by
  obtain ⟨ts₁, ts₂, rfl, hts₁, hts₂⟩ := spells_append hts
  rw [List.append_assoc]
  cases step with
  | none =>
    obtain rfl := spells_nil hts₂
    exact reads_bounds (reads_bound hu hsu hts₁ hk (.inr ht))
      (eat?_of_at? ((at?_cons _ _ _).trans (is_eq_false (by rw [ht]; decide))))
  | some e =>
    obtain ⟨t', ts₃, rfl, hk', ht', hts₃⟩ := spells_token (m := .colon) rfl hts₂
    exact reads_bounds_step (reads_bound hu hsu hts₁ hk' (.inl ht')) (is_of_op hk' ht')
      (reads_bound hs hss hts₃ hk (.inr ht))

private theorem isIndex_slice (p : Pos) {lower upper step : Option Expr}
    (hl : ∀ e ∈ lower, e.IsReadable) (hu : ∀ e ∈ upper, e.IsReadable)
    (hs : ∀ e ∈ step, e.IsReadable) (hsl : ∀ e ∈ lower, e.isSlice = false)
    (hsu : ∀ e ∈ upper, e.isSlice = false) (hss : ∀ e ∈ step, e.isSlice = false) :
    (slice p lower upper step).IsIndex := by
  intro n ts r t hts hk ht
  rw [layout] at hts
  obtain ⟨ts₁, ts₂, rfl, hts₁, hts₂⟩ := spells_append hts
  obtain ⟨t', ts₃, rfl, hk', ht', hts₃⟩ := spells_token (m := .colon) rfl hts₂
  have hbounds := reads_bounds_layout hu hs hsu hss (r := r) hts₃ hk ht
  refine reads_sequence ?_ ((at?_cons _ _ _).trans (is_eq_false (by rw [ht]; decide)))
  rw [item, List.append_assoc, unplaced_slice]
  cases lower with
  | none =>
    obtain rfl := spells_nil hts₁
    exact reads_index_colon (is_of_op hk' ht') hbounds
  | some e =>
    have hin := (hl e rfl n ts₁ hts₁).mono (rank_le (hsl e rfl)) (by decide)
    refine reads_index_slice ((hin.starts.append _).eat? (by decide) (by decide)) (hin.read ?_)
      (is_of_op hk' ht') hbounds
    exact .cons (by rw [jointOf_op hk' ht']; decide)

/-! ## Every expression -/

/-- What is proved of an expression by induction: besides itself, a condition joined from others is
also read without its parentheses, and a slice is read as an index. -/
structure ReadsBack (e : Expr) : Prop where
  readable : e.isSlice = false → e.IsReadable
  inside (p : Pos) (op : BoolOp) (values : List Expr) : e = boolOp p op values →
    ∀ n ts, Spells ts (operands op values n) → ReadsAt (joint op.spelling) ts e.unplaced
  index : e.IsIndex

private theorem ReadsBack.of_readable {e : Expr} (h : e.IsReadable) (hs : e.isSlice = false)
    (hb : ∀ p op values, e ≠ boolOp p op values) : e.ReadsBack where
  readable _ := h
  inside p op values he := absurd he (hb p op values)
  index := h.isIndex hs

/-- An expression that can be written is read back from the tokens of its layout. -/
theorem readsBack_of_isWritable {fractions : Binary64 → Bool}
    (hf : ∀ x, fractions x = true → x.IsWritten) {e : Expr} (h : e.isWritable fractions = true) :
    e.ReadsBack := by
  have of_operand {e : Expr} (h : e.isOperand fractions = true) :
      e.isSlice = false ∧ e.isWritable fractions = true := by
    simpa [isOperand] using h
  have each {es : List Expr} (ih : ∀ e ∈ es, e.isWritable fractions = true → e.ReadsBack)
      (h : ∀ e ∈ es, e.isOperand fractions = true) :
      (∀ e ∈ es, e.IsReadable) ∧ ∀ e ∈ es, e.isSlice = false :=
    ⟨fun e he => (ih e he (of_operand (h e he)).2).readable (of_operand (h e he)).1,
      fun e he => (of_operand (h e he)).1⟩
  have option {o : Option Expr} (ih : ∀ e ∈ o, e.isWritable fractions = true → e.ReadsBack)
      (h : ∀ e ∈ o, e.isOperand fractions = true) :
      (∀ e ∈ o, e.IsReadable) ∧ ∀ e ∈ o, e.isSlice = false :=
    ⟨fun e he => (ih e he (of_operand (h e he)).2).readable (of_operand (h e he)).1,
      fun e he => (of_operand (h e he)).1⟩
  induction e using partsInduction with
  | boolOp p op values ih =>
    simp only [isWritable, Bool.and_eq_true, areWritable_iff, decide_eq_true_eq] at h
    obtain ⟨hr, hs⟩ := each ih h.2
    have hb := isReadable_boolOp p op hr hs h.1
    refine ⟨fun _ => hb, ?_, hb.isIndex rfl⟩
    rintro p' op' values' he n ts hts
    cases he
    exact readsAt_operands p op hr hs h.1 hts
  | binary p left op right ihl ihr =>
    simp only [isWritable, Bool.and_eq_true, Bool.not_eq_true'] at h
    obtain ⟨⟨hsl, hl⟩, hsr, hr⟩ := h
    exact .of_readable (isReadable_binary p op ((ihl hl).readable hsl) ((ihr hr).readable hsr)
      hsl hsr) rfl (by simp)
  | unary p op operand ih =>
    simp only [isWritable, Bool.and_eq_true, Bool.not_eq_true'] at h
    exact .of_readable (isReadable_unary p op ((ih h.2).readable h.1) h.1) rfl (by simp)
  | compare p left ops comparators ihl ih =>
    simp only [isWritable, Bool.and_eq_true, areWritable_iff, Bool.not_eq_true',
      List.isEmpty_eq_false_iff, beq_iff_eq] at h
    obtain ⟨⟨⟨hne, hlen⟩, hsl, hl⟩, hc⟩ := h
    obtain ⟨hr, hs⟩ := each ih hc
    exact .of_readable (isReadable_compare p ((ihl hl).readable hsl) hsl hr hs hne hlen) rfl
      (by simp)
  | call p func args ihf ih =>
    simp only [isWritable, Bool.and_eq_true, areWritable_iff, Bool.not_eq_true'] at h
    obtain ⟨⟨hsf, hf⟩, hargs⟩ := h
    obtain ⟨hr, hs⟩ := each ih hargs
    refine .of_readable (isReadable_call p ((ihf hf).readable hsf) hsf ?_ hr hs ?_) rfl (by simp)
    · rintro q value attr rfl
      simp only [isWritable, Bool.and_eq_true] at hf
      exact .of_isIdentifier hf.2
    · rintro q op values rfl n ts hts
      have he := List.mem_cons_self (a := boolOp q op values) (l := [])
      exact (ih _ he (of_operand (hargs _ he)).2).inside q op values rfl n ts hts
  | member p value attr ih =>
    simp only [isWritable, Bool.and_eq_true, Bool.not_eq_true'] at h
    obtain ⟨⟨hs, hv⟩, ha⟩ := h
    exact .of_readable (isReadable_member p ((ih hv).readable hs) hs ha) rfl (by simp)
  | subscript p value index ihv ihi =>
    simp only [isWritable, Bool.and_eq_true, Bool.not_eq_true'] at h
    obtain ⟨⟨hs, hv⟩, hi⟩ := h
    exact .of_readable (isReadable_subscript p ((ihv hv).readable hs) hs (ihi hi).index) rfl
      (by simp)
  | ifExp p test body orelse iht ihb iho =>
    simp only [isWritable, Bool.and_eq_true, Bool.not_eq_true'] at h
    obtain ⟨⟨⟨hst, ht⟩, hsb, hb⟩, hso, ho⟩ := h
    exact .of_readable (isReadable_ifExp p ((iht ht).readable hst) ((ihb hb).readable hsb)
      ((iho ho).readable hso) hst hsb hso) rfl (by simp)
  | name p id => exact .of_readable (isReadable_name p h) rfl (by simp)
  | const p value => exact .of_readable (isReadable_const hf p h) rfl (by simp)
  | tuple p elts ih =>
    simp only [isWritable, areWritable_iff] at h
    obtain ⟨hr, hs⟩ := each ih h
    exact .of_readable (isReadable_tuple p hr hs) rfl (by simp)
  | list p elts ih =>
    simp only [isWritable, areWritable_iff] at h
    obtain ⟨hr, hs⟩ := each ih h
    exact .of_readable (isReadable_list p hr hs) rfl (by simp)
  | slice p lower upper step ihl ihu ihs =>
    simp only [isWritable, Bool.and_eq_true, isWritableBound_iff] at h
    obtain ⟨⟨hl, hu⟩, hs⟩ := h
    obtain ⟨hrl, hsl⟩ := option ihl hl
    obtain ⟨hru, hsu⟩ := option ihu hu
    obtain ⟨hrs, hss⟩ := option ihs hs
    exact ⟨by rintro ⟨⟩, by simp, isIndex_slice p hrl hru hrs hsl hsu hss⟩

end Expr
end ValidUsage
