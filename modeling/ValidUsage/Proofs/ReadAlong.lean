import ValidUsage.Proofs.ReadShape

/-!
# Reading along two lists of tokens

An expression ends before the first token of layout. So readers take the same values off two lists
of tokens that agree up to there and leave lists that agree again, and the names in a value are
names among the tokens. What "agree" means beyond the line is left open: it is any relation that
goes on while tokens of the line are taken off both lists.
-/

namespace ValidUsage

namespace Expr

/-- Whether all names in an expression are admitted. -/
def hasNames (ok : String → Bool) (e : Expr) : Bool := e.walk.all fun e => e.name?.all ok

section HasNames

variable {ok : String → Bool} (p : Pos) (e e₁ e₂ : Expr) (es : List Expr)

/-- All names in expressions are admitted when those in each of them are. -/
theorem walkList_hasNames :
    (walkList es).all (fun e => e.name?.all ok) = es.all (hasNames ok) := by
  rw [Bool.eq_iff_iff, all_walkList, List.all_eq_true]
  rfl

private theorem walkOption_hasNames (o : Option Expr) :
    (walkOption o).all (fun e => e.name?.all ok) = o.all (hasNames ok) := by
  cases o <;> rfl

@[simp] theorem hasNames_boolOp (op : BoolOp) :
    (boolOp p op es).hasNames ok = es.all (hasNames ok) := by
  rw [← walkList_hasNames]
  simp [hasNames, walk, name?]

@[simp] theorem hasNames_binary (op : BinOp) :
    (binary p e op e₁).hasNames ok = (e.hasNames ok && e₁.hasNames ok) := by
  simp [hasNames, walk, name?]

@[simp] theorem hasNames_unary (op : UnaryOp) : (unary p op e).hasNames ok = e.hasNames ok := by
  simp [hasNames, walk, name?]

@[simp] theorem hasNames_compare (ops : List CmpOp) :
    (compare p e ops es).hasNames ok = (e.hasNames ok && es.all (hasNames ok)) := by
  rw [← walkList_hasNames]
  simp [hasNames, walk, name?]

@[simp] theorem hasNames_call :
    (call p e es).hasNames ok = (e.hasNames ok && es.all (hasNames ok)) := by
  rw [← walkList_hasNames]
  simp [hasNames, walk, name?]

@[simp] theorem hasNames_member (attr : String) :
    (member p e attr).hasNames ok = e.hasNames ok := by
  simp [hasNames, walk, name?]

@[simp] theorem hasNames_subscript :
    (subscript p e e₁).hasNames ok = (e.hasNames ok && e₁.hasNames ok) := by
  simp [hasNames, walk, name?]

@[simp] theorem hasNames_ifExp : (ifExp p e e₁ e₂).hasNames ok =
    (e.hasNames ok && (e₁.hasNames ok && e₂.hasNames ok)) := by
  simp [hasNames, walk, name?]

@[simp] theorem hasNames_name (id : String) : (name p id).hasNames ok = ok id := by
  simp [hasNames, walk, name?]

@[simp] theorem hasNames_tuple : (tuple p es).hasNames ok = es.all (hasNames ok) := by
  rw [← walkList_hasNames]
  simp [hasNames, walk, name?]

@[simp] theorem hasNames_list : (list p es).hasNames ok = es.all (hasNames ok) := by
  rw [← walkList_hasNames]
  simp [hasNames, walk, name?]

@[simp] theorem hasNames_slice (lower upper step : Option Expr) :
    (slice p lower upper step).hasNames ok = (lower.all (hasNames ok) &&
      (upper.all (hasNames ok) && step.all (hasNames ok))) := by
  simp only [← walkOption_hasNames, ← List.all_append]
  simp [hasNames, walk, name?]

end HasNames
end Expr

namespace Parser

/-- Whether a relation between lists of tokens agrees on the next token and goes on behind it if it
is no layout, and the names in the lists are admitted. -/
structure IsAlong (ok : String → Bool) (R : List Token → List Token → Prop) : Prop where
  nil {ts' : List Token} : R [] ts' → ts' = []
  cons {t : Token} {r ts' : List Token} : R (t :: r) ts' → ∃ t' r', ts' = t' :: r' ∧
    t'.kind = t.kind ∧ t'.text = t.text ∧ (t.kind.isLayout = false → t' = t ∧ R r r')
  name {t : Token} {r ts' : List Token} : R (t :: r) ts' → t.kind = .name → ok t.text = true

/-- Whether what is read has a property, and a second reader reads the same, up to related
tokens. -/
def ReadsAlong {α : Type} {n n' : Nat} (R : List Token → List Token → Prop) (P : α → Prop)
    (x : Parse α n) (x' : Parse α n') : Prop :=
  ∀ v r h, x = .ok ⟨v, r, h⟩ → P v ∧ ∃ r' h', x' = .ok ⟨v, r', h'⟩ ∧ R r r'

section ReadsAlong

variable {α β : Type} {n n' m m' : Nat} {R : List Token → List Token → Prop} {P : α → Prop}
  {Q : β → Prop} {x : Parse α n} {x' : Parse α n'}

/-- A second reader goes along with two steps when it goes along with each. -/
theorem ReadsAlong.bind {f : Read α n → Parse β m} {f' : Read α n' → Parse β m'}
    (hx : ReadsAlong R P x x')
    (hf : ∀ v r h r' h', P v → R r r' → ReadsAlong R Q (f ⟨v, r, h⟩) (f' ⟨v, r', h'⟩)) :
    ReadsAlong R Q (x >>= f) (x' >>= f') := by
  intro v r h hv
  obtain ⟨⟨a, r₁, h₁⟩, ha, hv⟩ := ok_of_bind hv
  obtain ⟨hP, r₁', h₁', ha', hR⟩ := hx a r₁ h₁ ha
  rw [ha']
  exact hf a r₁ h₁ r₁' h₁' hP hR v r h hv

/-- It goes along with what is read already. -/
theorem ReadsAlong.ok {v : α} {r r' : List Token} {h : r.length < n} {h' : r'.length < n'}
    (hv : P v) (hR : R r r') : ReadsAlong R P (.ok ⟨v, r, h⟩) (.ok ⟨v, r', h'⟩ : Parse α n') := by
  rintro _ _ _ he
  cases he
  exact ⟨hv, r', h', rfl, hR⟩

/-- There is nothing to go along with where nothing is read. -/
theorem ReadsAlong.error {e : SyntaxError} : ReadsAlong R P (.error e : Parse α n) x' := nofun

end ReadsAlong

/-- A token with a text is no layout. -/
theorem isLayout_of_is {t : Token} {text : String} (h : t.is text = true) :
    t.kind.isLayout = false := by
  simp only [Token.is, Bool.and_eq_true, Bool.or_eq_true, beq_iff_eq] at h
  rcases h.1 with hk | hk <;> rw [hk] <;> rfl

/-- No expression starts with a token of layout. -/
theorem test_of_isLayout {ts : List Token} (h : (peek ts).kind.isLayout = true) :
    test ts = invalid ts := by
  have hnot (text : String) : (peek ts).is text = false := by
    cases ht : (peek ts).is text with
    | false => rfl
    | true => rw [isLayout_of_is ht] at h; cases h
  have heat : eat? "not" ts = none := by
    cases ts with
    | nil => rfl
    | cons t r => simp [eat?, show t.is "not" = false from hnot "not"]
  have hatom : atom ts = invalid ts := by
    cases ts with
    | nil => rw [atom]
    | cons t r =>
      rw [atom]
      cases hk : t.kind <;> simp_all [peek, TokenKind.isLayout]
  have hpower : power ts = invalid ts := by
    rw [power, primary, hatom]
    rfl
  have hfactor : factor ts = invalid ts := by
    cases ts with
    | nil => rw [factor]
    | cons t r =>
      have hsign : sign? t = none := if_neg fun hk => by
        rw [show (peek (t :: r)).kind = .op from hk] at h
        cases h
      rw [factor, hsign, hpower]
  have hbinary (l : Level) (ht : tighter l ts = invalid ts) : binary l ts = invalid ts := by
    rw [binary, ht]
    rfl
  have hproduct := hbinary .product (by rw [tighter, hfactor])
  have hsum := hbinary .sum (by rw [tighter, hproduct])
  have hshift := hbinary .shift (by rw [tighter, hsum])
  have hbitAnd := hbinary .bitAnd (by rw [tighter, hshift])
  have hbitXor := hbinary .bitXor (by rw [tighter, hbitAnd])
  have hbitOr := hbinary .bitOr (by rw [tighter, hbitXor])
  have hnegation : negation ts = invalid ts := by
    rw [negation, heat, comparison, hbitOr]
    rfl
  have hand : joined .and ts = invalid ts := by
    rw [joined, operand, hnegation]
    rfl
  rw [test, joined, operand, hand]
  rfl

section Next

variable {ok : String → Bool} {R : List Token → List Token → Prop} (hA : IsAlong ok R)
  {ts ts' : List Token}

include hA

/-- Of related lists both start with a text or neither does. -/
theorem IsAlong.is (hR : R ts ts') (text : String) : at? text ts' = at? text ts := by
  cases ts with
  | nil => rw [hA.nil hR]
  | cons t r =>
    obtain ⟨t', r', rfl, hk, ht, -⟩ := hA.cons hR
    simp [at?, peek, Token.is, hk, ht]

/-- A token of the line is taken off both lists. -/
theorem IsAlong.tail {t : Token} {r : List Token} (hR : R (t :: r) ts')
    (ht : t.kind.isLayout = false) : ∃ r', ts' = t :: r' ∧ R r r' := by
  obtain ⟨t', r', rfl, -, -, hnext⟩ := hA.cons hR
  obtain ⟨rfl, hr⟩ := hnext ht
  exact ⟨r', rfl, hr⟩

/-- An expression starts with the same token in both lists. -/
theorem IsAlong.peek_of_test (hR : R ts ts') {x : Read Expr ts.length} (h : test ts = .ok x) :
    peek ts' = peek ts := by
  cases ht : (peek ts).kind.isLayout with
  | true =>
    rw [test_of_isLayout ht] at h
    exact absurd h nofun
  | false =>
    cases ts with
    | nil => exact absurd ht (by decide)
    | cons t r =>
      obtain ⟨r', rfl, -⟩ := hA.tail hR ht
      rfl

/-- Their next tokens are of one kind. -/
theorem IsAlong.peek_kind (hR : R ts ts') : (peek ts').kind = (peek ts).kind := by
  cases ts with
  | nil => rw [hA.nil hR]
  | cons t r =>
    obtain ⟨t', r', rfl, hk, -⟩ := hA.cons hR
    exact hk

/-- A list of items ends in both or in none. -/
theorem IsAlong.ends (hR : R ts ts') (k : Sequence) : k.ends ts' = k.ends ts := by
  have his (text : String) : (peek ts').is text = (peek ts).is text := hA.is hR text
  have hkind := hA.peek_kind hR
  cases k with
  | values => simp [Sequence.ends, his, hkind]
  | targets => exact his "in"
  | indices => exact his "]"

/-- A word or an operator is eaten off both lists or off none of them. -/
theorem IsAlong.eat (hR : R ts ts') (text : String) :
    (eat? text ts = none ∧ eat? text ts' = none) ∨ ∃ r h r' h', eat? text ts = some ⟨r, h⟩ ∧
      eat? text ts' = some ⟨r', h'⟩ ∧ R r r' ∧ peek ts' = peek ts := by
  cases ts with
  | nil =>
    rw [hA.nil hR]
    exact .inl ⟨rfl, rfl⟩
  | cons t r =>
    cases ht : t.is text with
    | true =>
      obtain ⟨r', rfl, hr⟩ := hA.tail hR (isLayout_of_is ht)
      obtain ⟨h, he⟩ := eat?_cons_of_is (r := r) ht
      obtain ⟨h', he'⟩ := eat?_cons_of_is (r := r') ht
      exact .inr ⟨r, h, r', h', he, he', hr, rfl⟩
    | false =>
      obtain ⟨t', r', rfl, hk, htext, -⟩ := hA.cons hR
      have ht' : t'.is text = false := by rw [← ht]; simp [Token.is, hk, htext]
      exact .inl ⟨by simp [eat?, ht], by simp [eat?, ht']⟩

/-- A word or an operator that has to be next is next in both lists. -/
theorem IsAlong.expect {α : Type} {n n' : Nat} {P : α → Prop} (hR : R ts ts') (text : String)
    {f : { r : List Token // r.length < ts.length } → Parse α n}
    {f' : { r : List Token // r.length < ts'.length } → Parse α n'}
    (hf : ∀ r h r' h', R r r' → ReadsAlong R P (f ⟨r, h⟩) (f' ⟨r', h'⟩)) :
    ReadsAlong R P (expect text ts >>= f) (expect text ts' >>= f') := by
  rcases hA.eat hR text with ⟨h₁, -⟩ | ⟨r, h, r', h', h₁, h₂, hr, -⟩
  · rw [Parser.expect, h₁]
    exact ReadsAlong.error
  · rw [Parser.expect, Parser.expect, h₁, h₂]
    exact hf r h r' h' hr

private theorem IsAlong.cmpOp (hR : R ts ts') : (cmpOp? ts = none ∧ cmpOp? ts' = none) ∨
    ∃ op r h r' h', cmpOp? ts = some ⟨op, r, h⟩ ∧ cmpOp? ts' = some ⟨op, r', h'⟩ ∧ R r r' := by
  cases ts with
  | nil =>
    rw [hA.nil hR]
    exact .inl ⟨rfl, rfl⟩
  | cons t r =>
    cases ht : t.kind.isLayout with
    | true =>
      obtain ⟨t', r', rfl, hk, -⟩ := hA.cons hR
      refine .inl ⟨?_, ?_⟩
      · revert ht
        cases hkt : t.kind <;> simp [TokenKind.isLayout, cmpOp?, hkt]
      · revert ht
        cases hkt : t.kind <;> simp [TokenKind.isLayout, cmpOp?, hk, hkt]
    | false =>
      obtain ⟨r', rfl, hr⟩ := hA.tail hR ht
      unfold cmpOp?
      dsimp only
      split
      iterate 6
        exact .inr ⟨_, r, length_lt_cons t r, r', length_lt_cons t r', rfl, rfl, hr⟩
      · exact .inr ⟨_, r, length_lt_cons t r, r', length_lt_cons t r', rfl, rfl, hr⟩
      · rcases hA.eat hr "not" with ⟨h₁, h₂⟩ | ⟨s, h, s', h', h₁, h₂, hs, -⟩
        · rw [h₁, h₂]
          exact .inr ⟨_, r, length_lt_cons t r, r', length_lt_cons t r', rfl, rfl, hr⟩
        · rw [h₁, h₂]
          exact .inr ⟨_, s, lt_length_cons t h, s', lt_length_cons t h', rfl, rfl, hs⟩
      · rcases hA.eat hr "in" with ⟨h₁, h₂⟩ | ⟨s, h, s', h', h₁, h₂, hs, -⟩
        · rw [h₁, h₂]
          exact .inl ⟨rfl, rfl⟩
        · rw [h₁, h₂]
          exact .inr ⟨_, s, lt_length_cons t h, s', lt_length_cons t h', rfl, rfl, hs⟩
      · exact .inl ⟨rfl, rfl⟩

end Next

/-! ## Readers -/

/-- Whether all names in an expression are admitted, as a statement. -/
def Named (ok : String → Bool) (e : Expr) : Prop := e.hasNames ok = true

/-- Whether all names in some expressions are admitted. -/
def AllNamed (ok : String → Bool) (es : List Expr) : Prop := es.all (·.hasNames ok) = true

/-- Whether all names in a bound of a slice are admitted. -/
def BoundNamed (ok : String → Bool) (o : Option Expr) : Prop := o.all (·.hasNames ok) = true

/-- Whether all names in the bounds behind the first colon of a slice are admitted. -/
def BoundsNamed (ok : String → Bool) (b : Option Expr × Option Expr) : Prop :=
  BoundNamed ok b.1 ∧ BoundNamed ok b.2

section Readers

variable {ok : String → Bool} {R : List Token → List Token → Prop} (hA : IsAlong ok R)
  {ts ts' : List Token}

/-- An expression whose names are admitted may stand in front of such expressions. -/
theorem AllNamed.cons {e : Expr} {es : List Expr} (h : Named ok e) (hs : AllNamed ok es) :
    AllNamed ok (e :: es) := by
  rw [AllNamed, List.all_cons, Bool.and_eq_true]
  exact ⟨h, hs⟩

private theorem named_slice (p : Pos) {lower : Option Expr} {b : Option Expr × Option Expr}
    (hl : BoundNamed ok lower) (hb : BoundsNamed ok b) : Named ok (.slice p lower b.1 b.2) := by
  rw [Named, Expr.hasNames_slice, Bool.and_eq_true, Bool.and_eq_true]
  exact ⟨hl, hb.1, hb.2⟩

private theorem named_binary {left right : Expr} (p : Pos) (op : BinOp) (hl : Named ok left)
    (hr : Named ok right) : Named ok (.binary p left op right) := by
  rw [Named, Expr.hasNames_binary, Bool.and_eq_true]
  exact ⟨hl, hr⟩

include hA

private theorem along_sequence {k : Sequence}
    (hi : ReadsAlong R (Named ok) (item k ts) (item k ts'))
    (hs : ∀ r r', r.length < ts.length → R r r' →
      ReadsAlong R (AllNamed ok) (items k r) (items k r')) :
    ReadsAlong R (Named ok) (sequence k ts) (sequence k ts') := by
  rw [sequence, sequence]
  refine hi.bind fun first r h r' h' hfirst hr => ?_
  dsimp only
  rw [hA.is hr]
  split
  · exact (hs r r' h hr).bind fun others r₁ h₁ r₁' h₁' hothers hr₁ =>
      .ok ((Expr.hasNames_tuple ..).trans (hothers.cons hfirst)) hr₁
  · exact .ok hfirst hr

private theorem along_items {k : Sequence} (hR : R ts ts')
    (hi : ∀ r r', r.length < ts.length → R r r' → ReadsAlong R (Named ok) (item k r) (item k r'))
    (hs : ∀ r r', r.length < ts.length → R r r' →
      ReadsAlong R (AllNamed ok) (items k r) (items k r')) :
    ReadsAlong R (AllNamed ok) (items k ts) (items k ts') := by
  rw [items, items]
  rcases hA.eat hR "," with ⟨h₁, h₂⟩ | ⟨r, h, r', h', h₁, h₂, hr, -⟩
  · rw [h₁, h₂]
    exact .ok rfl hR
  · rw [h₁, h₂]
    dsimp only
    rw [hA.ends hr]
    split
    · exact .ok rfl hr
    · refine (hi r r' h hr).bind fun e r₁ h₁ r₁' h₁' he hr₁ => ?_
      exact (hs r₁ r₁' (Nat.lt_trans h₁ h) hr₁).bind fun es r₂ h₂ r₂' h₂' hes hr₂ =>
        .ok (hes.cons he) hr₂

omit hA in
private theorem along_item {k : Sequence}
    (hv : k = .values → ReadsAlong R (Named ok) (test ts) (test ts'))
    (ht : k = .targets → ReadsAlong R (Named ok) (binary .bitOr ts) (binary .bitOr ts'))
    (hi : k = .indices → ReadsAlong R (Named ok) (index ts) (index ts')) :
    ReadsAlong R (Named ok) (item k ts) (item k ts') := by
  cases k with
  | values => rw [item, item]; exact hv rfl
  | targets => rw [item, item]; exact ht rfl
  | indices => rw [item, item]; exact hi rfl

/-! ### Indices -/

private theorem along_index (hR : R ts ts') (ht : ReadsAlong R (Named ok) (test ts) (test ts'))
    (hb : ∀ r r', r.length < ts.length → R r r' →
      ReadsAlong R (BoundsNamed ok) (bounds r) (bounds r')) :
    ReadsAlong R (Named ok) (index ts) (index ts') := by
  rw [index, index]
  dsimp only
  rcases hA.eat hR ":" with ⟨h₁, h₂⟩ | ⟨r, h, r', h', h₁, h₂, hr, hpeek⟩
  · rw [h₁, h₂]
    intro v r₀ h₀ hv
    obtain ⟨x, hx, -⟩ := ok_of_bind hv
    have hpeek := hA.peek_of_test hR hx
    revert v r₀ h₀
    refine ht.bind fun e r h r' h' he hr => ?_
    dsimp only
    rcases hA.eat hr ":" with ⟨h₁, h₂⟩ | ⟨r₁, h₁', r₁', h₂', h₁, h₂, hr₁, -⟩
    · rw [h₁, h₂]
      exact .ok he hr
    · rw [h₁, h₂, hpeek]
      exact (hb r₁ r₁' (Nat.lt_trans h₁' h) hr₁).bind fun b r₂ h₂ r₂' h₂' hbs hr₂ =>
        .ok (named_slice _ he hbs) hr₂
  · rw [h₁, h₂, hpeek]
    exact (hb r r' h hr).bind fun b r₁ h₁ r₁' h₁' hbs hr₁ => .ok (named_slice _ rfl hbs) hr₁

private theorem along_bounds (hb : ReadsAlong R (BoundNamed ok) (bound ts) (bound ts'))
    (hb' : ∀ r r', r.length < ts.length → R r r' →
      ReadsAlong R (BoundNamed ok) (bound r) (bound r')) :
    ReadsAlong R (BoundsNamed ok) (bounds ts) (bounds ts') := by
  rw [bounds, bounds]
  refine hb.bind fun upper r h r' h' hu hr => ?_
  dsimp only
  rcases hA.eat hr ":" with ⟨h₁, h₂⟩ | ⟨r₁, h₁', r₁', h₂', h₁, h₂, hr₁, -⟩
  · rw [h₁, h₂]
    exact .ok ⟨hu, rfl⟩ hr
  · rw [h₁, h₂]
    exact (hb' r₁ r₁' (by omega) hr₁).bind fun step r₂ h₂ r₂' h₂' hs hr₂ => .ok ⟨hu, hs⟩ hr₂

private theorem along_bound (hR : R ts ts') (ht : ReadsAlong R (Named ok) (test ts) (test ts')) :
    ReadsAlong R (BoundNamed ok) (bound ts) (bound ts') := by
  rw [bound, bound, hA.is hR, hA.is hR, hA.is hR]
  split
  · exact .ok rfl hR
  · exact ht.bind fun e r h r' h' he hr => .ok he hr

/-! ### Conditions and comparisons -/

private theorem along_test (hj : ReadsAlong R (Named ok) (joined .or ts) (joined .or ts'))
    (hj' : ∀ r r', r.length < ts.length → R r r' →
      ReadsAlong R (Named ok) (joined .or r) (joined .or r'))
    (ht : ∀ r r', r.length < ts.length → R r r' → ReadsAlong R (Named ok) (test r) (test r')) :
    ReadsAlong R (Named ok) (test ts) (test ts') := by
  rw [test, test]
  refine hj.bind fun body r h r' h' hbody hr => ?_
  dsimp only
  rcases hA.eat hr "if" with ⟨h₁, h₂⟩ | ⟨r₁, h₁', r₁', h₂', h₁, h₂, hr₁, -⟩
  · rw [h₁, h₂]
    exact .ok hbody hr
  · rw [h₁, h₂]
    refine (hj' r₁ r₁' (Nat.lt_trans h₁' h) hr₁).bind fun cond r₂ h₂ r₂' h₂' hcond hr₂ => ?_
    refine hA.expect hr₂ "else" fun r₃ h₃ r₃' h₃' hr₃ => ?_
    refine (ht r₃ r₃' (by omega) hr₃).bind fun orelse r₄ h₄ r₄' h₄' horelse hr₄ => .ok ?_ hr₄
    rw [Named, Expr.hasNames_ifExp, Bool.and_eq_true, Bool.and_eq_true]
    exact ⟨hcond, hbody, horelse⟩

private theorem along_joined {op : BoolOp}
    (ho : ReadsAlong R (Named ok) (operand op ts) (operand op ts'))
    (hs : ∀ r r', r.length < ts.length → R r r' →
      ReadsAlong R (AllNamed ok) (operands op r) (operands op r')) :
    ReadsAlong R (Named ok) (joined op ts) (joined op ts') := by
  rw [joined, joined]
  refine ho.bind fun first r h r' h' hfirst hr => ?_
  dsimp only
  rw [hA.is hr]
  split
  · exact (hs r r' h hr).bind fun others r₁ h₁ r₁' h₁' hothers hr₁ =>
      .ok ((Expr.hasNames_boolOp ..).trans (hothers.cons hfirst)) hr₁
  · exact .ok hfirst hr

private theorem along_operands {op : BoolOp} (hR : R ts ts')
    (ho : ∀ r r', r.length < ts.length → R r r' →
      ReadsAlong R (Named ok) (operand op r) (operand op r'))
    (hs : ∀ r r', r.length < ts.length → R r r' →
      ReadsAlong R (AllNamed ok) (operands op r) (operands op r')) :
    ReadsAlong R (AllNamed ok) (operands op ts) (operands op ts') := by
  rw [operands, operands]
  rcases hA.eat hR op.spelling with ⟨h₁, h₂⟩ | ⟨r, h, r', h', h₁, h₂, hr, -⟩
  · rw [h₁, h₂]
    exact .ok rfl hR
  · rw [h₁, h₂]
    refine (ho r r' h hr).bind fun e r₁ h₁ r₁' h₁' he hr₁ => ?_
    exact (hs r₁ r₁' (Nat.lt_trans h₁ h) hr₁).bind fun es r₂ h₂ r₂' h₂' hes hr₂ =>
      .ok (hes.cons he) hr₂

omit hA in
private theorem along_operand {op : BoolOp}
    (hj : op = .or → ReadsAlong R (Named ok) (joined .and ts) (joined .and ts'))
    (hn : op = .and → ReadsAlong R (Named ok) (negation ts) (negation ts')) :
    ReadsAlong R (Named ok) (operand op ts) (operand op ts') := by
  cases op with
  | or => rw [operand, operand]; exact hj rfl
  | and => rw [operand, operand]; exact hn rfl

private theorem along_negation (hR : R ts ts')
    (hn : ∀ r r', r.length < ts.length → R r r' →
      ReadsAlong R (Named ok) (negation r) (negation r'))
    (hc : ReadsAlong R (Named ok) (comparison ts) (comparison ts')) :
    ReadsAlong R (Named ok) (negation ts) (negation ts') := by
  rw [negation, negation]
  rcases hA.eat hR "not" with ⟨h₁, h₂⟩ | ⟨r, h, r', h', h₁, h₂, hr, hpeek⟩
  · rw [h₁, h₂]
    exact hc
  · rw [h₁, h₂]
    dsimp only
    rw [hpeek]
    exact (hn r r' h hr).bind fun e r₁ h₁ r₁' h₁' he hr₁ =>
      .ok ((Expr.hasNames_unary ..).trans he) hr₁

omit hA in
private theorem along_comparison
    (hb : ReadsAlong R (Named ok) (binary .bitOr ts) (binary .bitOr ts'))
    (hc : ∀ r r', r.length < ts.length → R r r' →
      ReadsAlong R (fun c => AllNamed ok c.2) (comparators r) (comparators r')) :
    ReadsAlong R (Named ok) (comparison ts) (comparison ts') := by
  rw [comparison, comparison]
  refine hb.bind fun left r h r' h' hleft hr => ?_
  refine (hc r r' h hr).bind fun c r₁ h₁ r₁' h₁' hcs hr₁ => ?_
  dsimp only
  split
  · exact .ok hleft hr₁
  · refine .ok ?_ hr₁
    rw [Named, Expr.hasNames_compare, Bool.and_eq_true]
    exact ⟨hleft, hcs⟩

private theorem along_comparators (hR : R ts ts')
    (hb : ∀ r r', r.length < ts.length → R r r' →
      ReadsAlong R (Named ok) (binary .bitOr r) (binary .bitOr r'))
    (hc : ∀ r r', r.length < ts.length → R r r' →
      ReadsAlong R (fun c => AllNamed ok c.2) (comparators r) (comparators r')) :
    ReadsAlong R (fun c => AllNamed ok c.2) (comparators ts) (comparators ts') := by
  rw [comparators, comparators]
  rcases hA.cmpOp hR with ⟨h₁, h₂⟩ | ⟨op, r, h, r', h', h₁, h₂, hr⟩
  · rw [h₁, h₂]
    exact .ok rfl hR
  · rw [h₁, h₂]
    refine (hb r r' h hr).bind fun e r₁ h₁ r₁' h₁' he hr₁ => ?_
    exact (hc r₁ r₁' (Nat.lt_trans h₁ h) hr₁).bind fun c r₂ h₂ r₂' h₂' hcs hr₂ =>
      .ok (AllNamed.cons he hcs) hr₂

/-! ### Operators -/

omit hA in
private theorem along_binary {l : Level}
    (ht : ReadsAlong R (Named ok) (tighter l ts) (tighter l ts'))
    (hs : ∀ left r r', r.length < ts.length → R r r' → Named ok left →
      ReadsAlong R (Named ok) (binaryRest l left r) (binaryRest l left r')) :
    ReadsAlong R (Named ok) (binary l ts) (binary l ts') := by
  rw [binary, binary]
  refine ht.bind fun left r h r' h' hleft hr => ?_
  exact (hs left r r' h hr hleft).bind fun e r₁ h₁ r₁' h₁' he hr₁ => .ok he hr₁

private theorem along_binaryRest {l : Level} {left : Expr} (hR : R ts ts') (hl : Named ok left)
    (ht : ∀ r r', r.length < ts.length → R r r' →
      ReadsAlong R (Named ok) (tighter l r) (tighter l r'))
    (hs : ∀ left r r', r.length < ts.length → R r r' → Named ok left →
      ReadsAlong R (Named ok) (binaryRest l left r) (binaryRest l left r')) :
    ReadsAlong R (Named ok) (binaryRest l left ts) (binaryRest l left ts') := by
  cases ts with
  | nil =>
    rw [hA.nil hR, binaryRest]
    exact .ok hl (hA.nil hR ▸ hR)
  | cons t r =>
    obtain ⟨t', r', rfl, hk, htext, hnext⟩ := hA.cons hR
    have hop : l.op? t' = l.op? t := by simp [Level.op?, hk, htext]
    rw [binaryRest, binaryRest, hop]
    split
    · exact .ok hl hR
    · rename_i op hop
      obtain ⟨he, hr⟩ := hnext (by rw [(mem_of_op? hop).1]; rfl)
      obtain rfl := he.symm
      refine (ht r r' (length_lt_cons t r) hr).bind fun right r₁ h₁ r₁' h₁' hright hr₁ => ?_
      exact (hs _ r₁ r₁' (lt_length_cons t h₁) hr₁ (named_binary _ _ hl hright)).bind
        fun e r₂ h₂ r₂' h₂' he hr₂ => .ok he hr₂

private theorem along_factor (hR : R ts ts')
    (hf : ∀ r r', r.length < ts.length → R r r' → ReadsAlong R (Named ok) (factor r) (factor r'))
    (hp : ReadsAlong R (Named ok) (power ts) (power ts')) :
    ReadsAlong R (Named ok) (factor ts) (factor ts') := by
  cases ts with
  | nil =>
    rw [factor]
    exact .error
  | cons t r =>
    obtain ⟨t', r', rfl, hk, htext, hnext⟩ := hA.cons hR
    have hsign : sign? t' = sign? t := by simp [sign?, hk, htext]
    rw [factor, factor, hsign]
    split
    · rename_i op hop
      have hkind : t.kind = .op := by
        unfold sign? at hop
        split at hop
        · assumption
        · cases hop
      obtain ⟨he, hr⟩ := hnext (by rw [hkind]; rfl)
      obtain rfl := he.symm
      exact (hf r r' (length_lt_cons t r) hr).bind fun e r₁ h₁ r₁' h₁' he hr₁ =>
        .ok ((Expr.hasNames_unary ..).trans he) hr₁
    · exact hp

private theorem along_power (hp : ReadsAlong R (Named ok) (primary ts) (primary ts'))
    (hf : ∀ r r', r.length < ts.length → R r r' → ReadsAlong R (Named ok) (factor r) (factor r')) :
    ReadsAlong R (Named ok) (power ts) (power ts') := by
  rw [power, power]
  refine hp.bind fun base r h r' h' hbase hr => ?_
  dsimp only
  rcases hA.eat hr "**" with ⟨h₁, h₂⟩ | ⟨r₁, h₁', r₁', h₂', h₁, h₂, hr₁, -⟩
  · rw [h₁, h₂]
    exact .ok hbase hr
  · rw [h₁, h₂]
    exact (hf r₁ r₁' (Nat.lt_trans h₁' h) hr₁).bind fun e r₂ h₂ r₂' h₂' he hr₂ =>
      .ok (named_binary _ _ hbase he) hr₂

/-! ### Values with trailers -/

omit hA in
private theorem along_primary (ha : ReadsAlong R (Named ok) (atom ts) (atom ts'))
    (ht : ∀ e r r', r.length < ts.length → R r r' → Named ok e →
      ReadsAlong R (Named ok) (trailers e r) (trailers e r')) :
    ReadsAlong R (Named ok) (primary ts) (primary ts') := by
  rw [primary, primary]
  refine ha.bind fun e r h r' h' he hr => ?_
  exact (ht e r r' h hr he).bind fun e' r₁ h₁ r₁' h₁' he' hr₁ => .ok he' hr₁

private theorem along_arguments {close : String} (hR : R ts ts')
    (ht : ReadsAlong R (Named ok) (test ts) (test ts'))
    (hs : ∀ r r', r.length < ts.length → R r r' →
      ReadsAlong R (AllNamed ok) (arguments close r) (arguments close r')) :
    ReadsAlong R (AllNamed ok) (arguments close ts) (arguments close ts') := by
  rw [arguments, arguments]
  rcases hA.eat hR close with ⟨h₁, h₂⟩ | ⟨r, h, r', h', h₁, h₂, hr, -⟩
  · rw [h₁, h₂]
    refine ht.bind fun e r h r' h' he hr => ?_
    dsimp only
    rcases hA.eat hr "," with ⟨h₁, h₂⟩ | ⟨r₁, h₁', r₁', h₂', h₁, h₂, hr₁, -⟩
    · rw [h₁, h₂]
      exact hA.expect hr close fun r₁ h₁ r₁' h₁' hr₁ => .ok (AllNamed.cons he rfl) hr₁
    · rw [h₁, h₂]
      exact (hs r₁ r₁' (Nat.lt_trans h₁' h) hr₁).bind fun es r₂ h₂ r₂' h₂' hes hr₂ =>
        .ok (hes.cons he) hr₂
  · rw [h₁, h₂]
    exact .ok rfl hr

private theorem along_trailers {e : Expr} (hR : R ts ts') (he : Named ok e)
    (ha : ∀ r r', r.length < ts.length → R r r' →
      ReadsAlong R (AllNamed ok) (arguments ")" r) (arguments ")" r'))
    (hi : ∀ r r', r.length < ts.length → R r r' →
      ReadsAlong R (Named ok) (sequence .indices r) (sequence .indices r'))
    (ht : ∀ e r r', r.length < ts.length → R r r' → Named ok e →
      ReadsAlong R (Named ok) (trailers e r) (trailers e r')) :
    ReadsAlong R (Named ok) (trailers e ts) (trailers e ts') := by
  rw [trailers, trailers]
  rcases hA.eat hR "(" with ⟨h₁, h₂⟩ | ⟨r, h, r', h', h₁, h₂, hr, -⟩
  · rw [h₁, h₂]
    dsimp only
    rcases hA.eat hR "[" with ⟨h₁, h₂⟩ | ⟨r, h, r', h', h₁, h₂, hr, -⟩
    · rw [h₁, h₂]
      dsimp only
      rcases hA.eat hR "." with ⟨h₁, h₂⟩ | ⟨r, h, r', h', h₁, h₂, hr, -⟩
      · rw [h₁, h₂]
        exact .ok he hR
      · rw [h₁, h₂]
        cases r with
        | nil => exact .error
        | cons t r =>
          obtain ⟨t', r', rfl, hk, htext, hnext⟩ := hA.cons hr
          dsimp only
          rw [hk, htext]
          split
          · rename_i hname
            obtain ⟨ht', hr₀⟩ := hnext (by rw [hname.1]; rfl)
            obtain rfl := ht'.symm
            refine (ht _ r r' ?_ hr₀ ((Expr.hasNames_member ..).trans he)).bind
              fun e' r₁ h₁ r₁' h₁' he' hr₁ => .ok he' hr₁
            exact Nat.lt_trans (length_lt_cons t r) h
          · exact .error
    · rw [h₁, h₂]
      refine (hi r r' h hr).bind fun i r₁ h₁ r₁' h₁' hindex hr₁ => ?_
      refine hA.expect hr₁ "]" fun r₂ h₂ r₂' h₂' hr₂ => ?_
      refine (ht _ r₂ r₂' (by omega) hr₂ ?_).bind fun e' r₃ h₃ r₃' h₃' he' hr₃ => .ok he' hr₃
      rw [Named, Expr.hasNames_subscript, Bool.and_eq_true]
      exact ⟨he, hindex⟩
  · rw [h₁, h₂]
    refine (ha r r' h hr).bind fun args r₁ h₁ r₁' h₁' hargs hr₁ => ?_
    refine (ht _ r₁ r₁' (Nat.lt_trans h₁ h) hr₁ ?_).bind
      fun e' r₂ h₂ r₂' h₂' he' hr₂ => .ok he' hr₂
    rw [Named, Expr.hasNames_call, Bool.and_eq_true]
    exact ⟨he, hargs⟩

omit hA in
private theorem along_atom_brackets {t : Token} {r r' : List Token} (hA : IsAlong ok R)
    (hr : R r r')
    (hk : t.kind = .op) (hs : ReadsAlong R (Named ok) (sequence .values r) (sequence .values r'))
    (ha : ReadsAlong R (AllNamed ok) (arguments "]" r) (arguments "]" r')) :
    ReadsAlong R (Named ok) (atom (t :: r)) (atom (t :: r')) := by
  rw [atom, atom]
  simp only [hk]
  split
  · rcases hA.eat hr ")" with ⟨h₁, h₂⟩ | ⟨r₁, h, r₁', h', h₁, h₂, hr₁, -⟩
    · rw [h₁, h₂]
      refine hs.bind fun e r₁ h₁ r₁' h₁' he hr₁ => ?_
      exact hA.expect hr₁ ")" fun r₂ h₂ r₂' h₂' hr₂ => .ok he hr₂
    · rw [h₁, h₂]
      exact .ok rfl hr₁
  · split
    · exact ha.bind fun es r₁ h₁ r₁' h₁' hes hr₁ => .ok ((Expr.hasNames_list ..).trans hes) hr₁
    · exact .error

/-- Strings that follow each other are taken off both lists. -/
theorem IsAlong.strings (hR : R ts ts') :
    ts'.takeWhile (·.kind == .str) = ts.takeWhile (·.kind == .str) ∧
      R (ts.dropWhile (·.kind == .str)) (ts'.dropWhile (·.kind == .str)) := by
  induction ts generalizing ts' with
  | nil =>
    obtain rfl := hA.nil hR
    exact ⟨rfl, hR⟩
  | cons t r ih =>
    obtain ⟨t', r', rfl, hk, -, hnext⟩ := hA.cons hR
    cases ht : t.kind == .str with
    | true =>
      obtain ⟨he, hr⟩ := hnext (by rw [eq_of_beq ht]; rfl)
      obtain rfl := he.symm
      obtain ⟨hstr, hrest⟩ := ih hr
      simp only [List.takeWhile_cons, List.dropWhile_cons, ht, if_true, hstr]
      exact ⟨trivial, hrest⟩
    | false =>
      have ht' : (t'.kind == .str) = false := by rw [hk, ht]
      simp only [List.takeWhile_cons, List.dropWhile_cons, ht, ht', Bool.false_eq_true, if_false]
      exact ⟨trivial, hR⟩

private theorem along_atom (hR : R ts ts')
    (hs : ∀ r r', r.length < ts.length → R r r' →
      ReadsAlong R (Named ok) (sequence .values r) (sequence .values r'))
    (ha : ∀ r r', r.length < ts.length → R r r' →
      ReadsAlong R (AllNamed ok) (arguments "]" r) (arguments "]" r')) :
    ReadsAlong R (Named ok) (atom ts) (atom ts') := by
  cases ts with
  | nil =>
    rw [atom]
    exact .error
  | cons t r =>
    obtain ⟨t', r', rfl, hk, htext, hnext⟩ := hA.cons hR
    have hlt := length_lt_cons t r
    have hshared (h : t.kind.isLayout = false) : t' = t ∧ R r r' := hnext h
    cases hkind : t.kind with
    | name =>
      obtain ⟨he, hr⟩ := hshared (by rw [hkind]; rfl)
      obtain rfl := he.symm
      rw [atom, atom]
      simp only [hkind]
      split
      · exact .ok rfl hr
      split
      · exact .ok rfl hr
      split
      · exact .ok rfl hr
      split
      · exact .error
      · exact .ok ((Expr.hasNames_name ..).trans (hA.name hR hkind)) hr
    | number =>
      obtain ⟨he, hr⟩ := hshared (by rw [hkind]; rfl)
      obtain rfl := he.symm
      rw [atom, atom]
      simp only [hkind]
      split
      · exact .ok rfl hr
      · exact .error
    | str =>
      obtain ⟨he, hr⟩ := hshared (by rw [hkind]; rfl)
      obtain rfl := he.symm
      obtain ⟨hstr, hrest⟩ := hA.strings hr
      rw [atom, atom]
      simp only [hkind, List.takeWhile_cons, BEq.rfl, if_true, hstr]
      exact .ok rfl hrest
    | op =>
      obtain ⟨he, hr⟩ := hshared (by rw [hkind]; rfl)
      obtain rfl := he.symm
      exact along_atom_brackets hA hr hkind (hs r r' hlt hr) (ha r r' hlt hr)
    | _ =>
      rw [atom]
      simp only [hkind]
      exact .error

end Readers

/-- What reading along two lists gives, at every level of the grammar. -/
structure ReadingAlong (ok : String → Bool) (R : List Token → List Token → Prop)
    (ts ts' : List Token) : Prop where
  sequence (k : Sequence) : ReadsAlong R (Named ok) (sequence k ts) (sequence k ts')
  items (k : Sequence) : ReadsAlong R (AllNamed ok) (items k ts) (items k ts')
  item (k : Sequence) : ReadsAlong R (Named ok) (item k ts) (item k ts')
  bounds : ReadsAlong R (BoundsNamed ok) (bounds ts) (bounds ts')
  bound : ReadsAlong R (BoundNamed ok) (bound ts) (bound ts')
  test : ReadsAlong R (Named ok) (test ts) (test ts')
  joined (op : BoolOp) : ReadsAlong R (Named ok) (joined op ts) (joined op ts')
  operands (op : BoolOp) : ReadsAlong R (AllNamed ok) (operands op ts) (operands op ts')
  operand (op : BoolOp) : ReadsAlong R (Named ok) (operand op ts) (operand op ts')
  negation : ReadsAlong R (Named ok) (negation ts) (negation ts')
  comparators : ReadsAlong R (fun c => AllNamed ok c.2) (comparators ts) (comparators ts')
  binary (l : Level) : ReadsAlong R (Named ok) (binary l ts) (binary l ts')
  tighter (l : Level) : ReadsAlong R (Named ok) (tighter l ts) (tighter l ts')
  binaryRest (l : Level) (left : Expr) (h : Named ok left) :
    ReadsAlong R (Named ok) (binaryRest l left ts) (binaryRest l left ts')
  factor : ReadsAlong R (Named ok) (factor ts) (factor ts')
  trailers (e : Expr) (h : Named ok e) : ReadsAlong R (Named ok) (trailers e ts) (trailers e ts')
  arguments (close : String) :
    ReadsAlong R (AllNamed ok) (arguments close ts) (arguments close ts')

/-- Reading goes on with fewer tokens, or on the same ones with a tighter reader. -/
theorem readingAlong {ok : String → Bool} {R : List Token → List Token → Prop}
    (hA : IsAlong ok R) (ts ts' : List Token) (hR : R ts ts') : ReadingAlong ok R ts ts' := by
  induction hn : ts.length using Nat.strongRecOn generalizing ts ts' with
  | _ n ih =>
    have ih (r r' : List Token) (h : r.length < ts.length) (hr : R r r') :
        ReadingAlong ok R r r' := ih r.length (hn ▸ h) r r' hr rfl
    have atom := along_atom hA hR (fun r r' h hr => (ih r r' h hr).sequence .values)
      fun r r' h hr => (ih r r' h hr).arguments "]"
    have trailers (e : Expr) (he : Named ok e) := along_trailers hA hR he
      (fun r r' h hr => (ih r r' h hr).arguments ")")
      (fun r r' h hr => (ih r r' h hr).sequence .indices)
      fun e r r' h hr he => (ih r r' h hr).trailers e he
    have primary := along_primary atom fun e r r' h hr he => (ih r r' h hr).trailers e he
    have factor := along_factor hA hR (fun r r' h hr => (ih r r' h hr).factor)
      (along_power hA primary fun r r' h hr => (ih r r' h hr).factor)
    have level {l : Level}
        (ht : ReadsAlong R (Named ok) (Parser.tighter l ts) (Parser.tighter l ts')) :
        ReadsAlong R (Named ok) (Parser.binary l ts) (Parser.binary l ts') :=
      along_binary ht fun left r r' h hr hl => (ih r r' h hr).binaryRest l left hl
    have tightest :
        ReadsAlong R (Named ok) (Parser.tighter .product ts) (Parser.tighter .product ts') := by
      rw [Parser.tighter, Parser.tighter]
      exact factor
    have tighter (l : Level) :
        ReadsAlong R (Named ok) (Parser.tighter l ts) (Parser.tighter l ts') := by
      have next (l l' : Level) (he : ∀ ts, Parser.tighter l' ts = Parser.binary l ts)
          (h : ReadsAlong R (Named ok) (Parser.tighter l ts) (Parser.tighter l ts')) :
          ReadsAlong R (Named ok) (Parser.tighter l' ts) (Parser.tighter l' ts') := by
        rw [he, he]
        exact level h
      have sum := next .product .sum (fun _ => by rw [Parser.tighter]) tightest
      have shift := next .sum .shift (fun _ => by rw [Parser.tighter]) sum
      have bitAnd := next .shift .bitAnd (fun _ => by rw [Parser.tighter]) shift
      have bitXor := next .bitAnd .bitXor (fun _ => by rw [Parser.tighter]) bitAnd
      have bitOr := next .bitXor .bitOr (fun _ => by rw [Parser.tighter]) bitXor
      cases l <;> assumption
    have binary (l : Level) := level (tighter l)
    have comparison := along_comparison (binary .bitOr)
      fun r r' h hr => (ih r r' h hr).comparators
    have negation := along_negation hA hR (fun r r' h hr => (ih r r' h hr).negation) comparison
    have and : ReadsAlong R (Named ok) (Parser.joined .and ts) (Parser.joined .and ts') :=
      along_joined hA (along_operand (by rintro ⟨⟩) fun _ => negation)
        fun r r' h hr => (ih r r' h hr).operands .and
    have operand (op : BoolOp) :
        ReadsAlong R (Named ok) (Parser.operand op ts) (Parser.operand op ts') :=
      along_operand (fun _ => and) fun _ => negation
    have joined (op : BoolOp) := along_joined hA (operand op)
      fun r r' h hr => (ih r r' h hr).operands op
    have test := along_test hA (joined .or) (fun r r' h hr => (ih r r' h hr).joined .or)
      fun r r' h hr => (ih r r' h hr).test
    have item (k : Sequence) : ReadsAlong R (Named ok) (Parser.item k ts) (Parser.item k ts') :=
      along_item (fun _ => test) (fun _ => binary .bitOr)
        fun _ => along_index hA hR test fun r r' h hr => (ih r r' h hr).bounds
    have bound := along_bound hA hR test
    exact {
      sequence := fun k => along_sequence hA (item k) fun r r' h hr => (ih r r' h hr).items k
      items := fun k => along_items hA hR (fun r r' h hr => (ih r r' h hr).item k)
        fun r r' h hr => (ih r r' h hr).items k
      item := item
      bounds := along_bounds hA bound fun r r' h hr => (ih r r' h hr).bound
      bound := bound
      test := test
      joined := joined
      operands := fun op => along_operands hA hR (fun r r' h hr => (ih r r' h hr).operand op)
        fun r r' h hr => (ih r r' h hr).operands op
      operand := operand
      negation := negation
      comparators := along_comparators hA hR (fun r r' h hr => (ih r r' h hr).binary .bitOr)
        fun r r' h hr => (ih r r' h hr).comparators
      binary := binary
      tighter := tighter
      binaryRest := fun l left hl => along_binaryRest hA hR hl
        (fun r r' h hr => (ih r r' h hr).tighter l)
        fun left r r' h hr hl => (ih r r' h hr).binaryRest l left hl
      factor := factor
      trailers := trailers
      arguments := fun close => along_arguments hA hR test
        fun r r' h hr => (ih r r' h hr).arguments close }

end Parser
end ValidUsage
