import ValidUsage.Proofs.ScanMarks
import ValidUsage.Syntax.ExprParser

/-!
# Readers of expressions, one step at a time

What each reader makes of the tokens in front of it, given what the readers that it calls make of
theirs. Values are compared without positions.
-/

namespace ValidUsage

namespace Parser

open ValidUsage.Expr (unplaced)

/-- Whether reading gives a value with the image `b` under `f`, and leaves the tokens `r`. -/
def Reads {α β : Type} {n : Nat} (f : α → β) (x : Parse α n) (b : β) (r : List Token) : Prop :=
  ∃ a h, x = .ok ⟨a, r, h⟩ ∧ f a = b

/-- A token with the text that is asked for is taken. -/
theorem eat?_cons_of_is {text : String} {t : Token} {r : List Token} (h : t.is text = true) :
    ∃ h', eat? text (t :: r) = some ⟨r, h'⟩ := by
  simp [eat?, h]

variable {ts r r₁ r₂ r₃ : List Token} {t t' : Token} {e e₁ e₂ e₃ : Expr} {es : List Expr}

/-- A test is what `or` joins, if no `if` follows. -/
theorem reads_test (h : Reads unplaced (joined .or ts) e r) (hr : eat? "if" r = none) :
    Reads unplaced (test ts) e r := by
  obtain ⟨a, hb, h, ha⟩ := h
  refine ⟨a, hb, ?_, ha⟩
  rw [test, h]
  simp only [bind, Except.bind, hr, pure, Except.pure]

/-- A choice is read as its body, its condition and what it is otherwise. -/
theorem reads_test_choice (hbody : Reads unplaced (joined .or ts) e₁ (t :: r₁))
    (ht : t.is "if" = true) (hcond : Reads unplaced (joined .or r₁) e₂ (t' :: r₂))
    (ht' : t'.is "else" = true) (horelse : Reads unplaced (test r₂) e₃ r₃) :
    Reads unplaced (test ts) (.ifExp .none e₂ e₁ e₃) r₃ := by
  obtain ⟨a₁, h₁, hbody, rfl⟩ := hbody
  obtain ⟨a₂, h₂, hcond, rfl⟩ := hcond
  obtain ⟨a₃, h₃, horelse, rfl⟩ := horelse
  refine ⟨.ifExp a₁.pos a₂ a₁ a₃, by simp at h₁ h₂; omega, ?_, rfl⟩
  rw [test, hbody]
  simp only [bind, Except.bind, eat?, ht, if_true, hcond, expect, ht', horelse, pure, Except.pure]

/-- A single operand is read as it is, if the operator does not follow. -/
theorem reads_joined {op : BoolOp} (h : Reads unplaced (operand op ts) e r)
    (hr : at? op.spelling r = false) : Reads unplaced (joined op ts) e r := by
  obtain ⟨a, hb, h, ha⟩ := h
  refine ⟨a, hb, ?_, ha⟩
  rw [joined, h]
  simp only [bind, Except.bind, hr, Bool.false_eq_true, if_false, pure, Except.pure]

/-- Operands that an operator joins become one expression. -/
theorem reads_joined_many {op : BoolOp} (h : Reads unplaced (operand op ts) e r)
    (hr : at? op.spelling r = true) (hs : Reads (List.map unplaced) (operands op r) es r₁) :
    Reads unplaced (joined op ts) (.boolOp .none op (e :: es)) r₁ := by
  obtain ⟨a, h₁, h, rfl⟩ := h
  obtain ⟨as, h₂, hs, rfl⟩ := hs
  refine ⟨.boolOp a.pos op (a :: as), by omega, ?_, by simp⟩
  rw [joined, h]
  simp only [bind, Except.bind, hr, if_true, hs, pure, Except.pure]

/-- There are no further operands where the operator does not stand. -/
theorem reads_operands_nil {op : BoolOp} (hr : eat? op.spelling r = none) :
    Reads (List.map unplaced) (operands op r) [] r := by
  refine ⟨[], length_lt_succ r, ?_, rfl⟩
  rw [operands, hr]

/-- Where the operator stands, one more operand follows. -/
theorem reads_operands_cons {op : BoolOp} (ht : t.is op.spelling = true)
    (h : Reads unplaced (operand op r) e r₁)
    (hs : Reads (List.map unplaced) (operands op r₁) es r₂) :
    Reads (List.map unplaced) (operands op (t :: r)) (e :: es) r₂ := by
  obtain ⟨a, h₁, h, rfl⟩ := h
  obtain ⟨as, h₂, hs, rfl⟩ := hs
  refine ⟨a :: as, by simp; omega, ?_, rfl⟩
  rw [operands]
  simp only [eat?, ht, if_true, h, hs, bind, Except.bind, pure, Except.pure]

/-- What does not start with `not` is read as a comparison. -/
theorem reads_negation (hts : eat? "not" ts = none) (h : Reads unplaced (comparison ts) e r) :
    Reads unplaced (negation ts) e r := by
  obtain ⟨a, hb, h, ha⟩ := h
  refine ⟨a, hb, ?_, ha⟩
  rw [negation, hts, h]

/-- A `not` negates what is read behind it. -/
theorem reads_negation_not (ht : t.is "not" = true) (h : Reads unplaced (negation ts) e r) :
    Reads unplaced (negation (t :: ts)) (.unary .none .not e) r := by
  obtain ⟨a, hb, h, rfl⟩ := h
  refine ⟨.unary t.pos .not a, by simp; omega, ?_, rfl⟩
  rw [negation]
  simp only [eat?, ht, if_true, h, bind, Except.bind, pure, Except.pure]
  rfl

/-- The image of the operators and operands of a chain of comparisons. -/
def unplacedChain (c : List CmpOp × List Expr) : List CmpOp × List Expr :=
  (c.1, c.2.map unplaced)

/-- Comparisons one after the other become one chain. -/
theorem reads_comparison_chain {op : CmpOp} {ops : List CmpOp}
    (h : Reads unplaced (binary .bitOr ts) e r)
    (hs : Reads unplacedChain (comparators r) (op :: ops, es) r₁) :
    Reads unplaced (comparison ts) (.compare .none e (op :: ops) es) r₁ := by
  obtain ⟨a, h₁, h, rfl⟩ := h
  obtain ⟨⟨ops', as⟩, h₂, hs, ha⟩ := hs
  simp only [unplacedChain, Prod.mk.injEq] at ha
  obtain ⟨rfl, rfl⟩ := ha
  refine ⟨.compare a.pos a (op :: ops) as, by omega, ?_, by simp⟩
  rw [comparison, h]
  simp only [bind, Except.bind, hs, pure, Except.pure]

/-- There are no further comparisons where no operator of one stands. -/
theorem reads_comparators_nil (hr : cmpOp? r = none) :
    Reads unplacedChain (comparators r) ([], []) r := by
  refine ⟨([], []), length_lt_succ r, ?_, rfl⟩
  rw [comparators, hr]

/-- Without an operator of a comparison behind it, an operand is read as it is. -/
theorem reads_comparison (h : Reads unplaced (binary .bitOr ts) e r) (hr : cmpOp? r = none) :
    Reads unplaced (comparison ts) e r := by
  obtain ⟨a, hb, h, ha⟩ := h
  have hs : comparators r = .ok ⟨([], []), r, length_lt_succ r⟩ := by rw [comparators, hr]
  refine ⟨a, hb, ?_, ha⟩
  rw [comparison, h]
  simp only [bind, Except.bind, hs, pure, Except.pure]

/-- Where such an operator stands, one more operand follows. -/
theorem reads_comparators_cons {op : CmpOp} {ops : List CmpOp} {h₀ : r.length < ts.length}
    (hop : cmpOp? ts = some ⟨op, r, h₀⟩) (h : Reads unplaced (binary .bitOr r) e r₁)
    (hs : Reads unplacedChain (comparators r₁) (ops, es) r₂) :
    Reads unplacedChain (comparators ts) (op :: ops, e :: es) r₂ := by
  obtain ⟨a, h₁, h, rfl⟩ := h
  obtain ⟨⟨ops', as⟩, h₂, hs, ha⟩ := hs
  simp only [unplacedChain, Prod.mk.injEq] at ha
  obtain ⟨rfl, rfl⟩ := ha
  refine ⟨(op :: ops', a :: as), by omega, ?_, rfl⟩
  rw [comparators, hop]
  simp only [h, hs, bind, Except.bind, pure, Except.pure]

/-- The operations of a level are read from the left, each operand at the tighter level. -/
theorem reads_binary {l : Level} (h : Reads unplaced (tighter l ts) e r)
    (hr : ∀ a, a.unplaced = e → Reads unplaced (binaryRest l a r) e₁ r₁) :
    Reads unplaced (binary l ts) e₁ r₁ := by
  obtain ⟨a, h₁, h, ha⟩ := h
  obtain ⟨a', h₂, hr', rfl⟩ := hr a ha
  refine ⟨a', by omega, ?_, rfl⟩
  rw [binary, h]
  simp only [bind, Except.bind, hr', pure, Except.pure]

/-- The operations of a level end where no operator of the level stands. -/
theorem reads_binaryRest_stop {l : Level} (hr : ∀ t ∈ r.head?, l.op? t = none) (a : Expr) :
    Reads unplaced (binaryRest l a r) a.unplaced r := by
  refine ⟨a, length_lt_succ r, ?_, rfl⟩
  cases r with
  | nil => rw [binaryRest]
  | cons t r =>
    rw [binaryRest, hr t rfl]

/-- An operator of the level joins what is read so far to the next operand. -/
theorem reads_binaryRest_cons {l : Level} {op : BinOp} {a : Expr} (ht : l.op? t = some op)
    (h : Reads unplaced (tighter l r) e₁ r₁)
    (hr : ∀ a', a'.unplaced = .binary .none a.unplaced op e₁ →
      Reads unplaced (binaryRest l a' r₁) e₂ r₂) :
    Reads unplaced (binaryRest l a (t :: r)) e₂ r₂ := by
  obtain ⟨b, h₁, h, rfl⟩ := h
  obtain ⟨c, h₂, hr', rfl⟩ := hr (.binary a.pos a op b) rfl
  refine ⟨c, by simp; omega, ?_, rfl⟩
  rw [binaryRest]
  simp only [ht, h, hr', bind, Except.bind, pure, Except.pure]

/-- What has no sign is read as a power. -/
theorem reads_factor (ht : sign? t = none) (h : Reads unplaced (power (t :: ts)) e r) :
    Reads unplaced (factor (t :: ts)) e r := by
  obtain ⟨a, hb, h, ha⟩ := h
  refine ⟨a, hb, ?_, ha⟩
  rw [factor, ht, h]

/-- A sign applies to the factor behind it. -/
theorem reads_factor_sign {op : UnaryOp} (ht : sign? t = some op)
    (h : Reads unplaced (factor ts) e r) :
    Reads unplaced (factor (t :: ts)) (.unary .none op e) r := by
  obtain ⟨a, hb, h, rfl⟩ := h
  refine ⟨.unary t.pos op a, by simp; omega, ?_, rfl⟩
  rw [factor]
  simp only [ht, h, bind, Except.bind, pure, Except.pure]

/-- A primary is read as it is, if it has no exponent. -/
theorem reads_power (h : Reads unplaced (primary ts) e r) (hr : eat? "**" r = none) :
    Reads unplaced (power ts) e r := by
  obtain ⟨a, hb, h, ha⟩ := h
  refine ⟨a, hb, ?_, ha⟩
  rw [power, h]
  simp only [bind, Except.bind, hr, pure, Except.pure]

/-- An exponent is a factor. -/
theorem reads_power_pow (h : Reads unplaced (primary ts) e (t :: r)) (ht : t.is "**" = true)
    (h' : Reads unplaced (factor r) e₁ r₁) :
    Reads unplaced (power ts) (.binary .none e .pow e₁) r₁ := by
  obtain ⟨a, h₁, h, rfl⟩ := h
  obtain ⟨b, h₂, h', rfl⟩ := h'
  refine ⟨.binary a.pos a .pow b, by simp at h₁; omega, ?_, rfl⟩
  rw [power, h]
  simp only [bind, Except.bind, eat?, ht, if_true, h', pure, Except.pure]

/-- A primary is an atom with what trails it. -/
theorem reads_primary (h : Reads unplaced (atom ts) e r)
    (hr : ∀ a, a.unplaced = e → Reads unplaced (trailers a r) e₁ r₁) :
    Reads unplaced (primary ts) e₁ r₁ := by
  obtain ⟨a, h₁, h, ha⟩ := h
  obtain ⟨a', h₂, hr', rfl⟩ := hr a ha
  refine ⟨a', by omega, ?_, rfl⟩
  rw [primary, h]
  simp only [bind, Except.bind, hr', pure, Except.pure]

/-- Nothing trails an expression unless a bracket opens or a point follows. -/
theorem reads_trailers_stop (h₁ : eat? "(" r = none) (h₂ : eat? "[" r = none)
    (h₃ : eat? "." r = none) (a : Expr) : Reads unplaced (trailers a r) a.unplaced r := by
  refine ⟨a, length_lt_succ r, ?_, rfl⟩
  rw [trailers, h₁]
  simp only [h₂, h₃]

/-- Arguments make a call of what they trail. -/
theorem reads_trailers_call {a : Expr} (ht : t.is "(" = true)
    (h : Reads (List.map unplaced) (arguments ")" r) es r₁)
    (hr : ∀ a', a'.unplaced = .call .none a.unplaced es → Reads unplaced (trailers a' r₁) e r₂) :
    Reads unplaced (trailers a (t :: r)) e r₂ := by
  obtain ⟨as, h₁, h, rfl⟩ := h
  obtain ⟨c, h₂, hr', rfl⟩ := hr (.call a.pos a as) (by simp)
  refine ⟨c, by simp; omega, ?_, rfl⟩
  rw [trailers]
  simp only [eat?, ht, if_true, h, hr', bind, Except.bind, pure, Except.pure]

/-- An index makes an element of what it trails. -/
theorem reads_trailers_subscript {a : Expr} (ht : t.is "(" = false) (ht' : t.is "[" = true)
    (h : Reads unplaced (sequence .indices r) e₁ (t' :: r₁)) (hc : t'.is "]" = true)
    (hr : ∀ a', a'.unplaced = .subscript .none a.unplaced e₁ →
      Reads unplaced (trailers a' r₁) e r₂) : Reads unplaced (trailers a (t :: r)) e r₂ := by
  obtain ⟨i, h₁, h, rfl⟩ := h
  obtain ⟨c, h₂, hr', rfl⟩ := hr (.subscript a.pos a i) rfl
  refine ⟨c, by simp at h₁ ⊢; omega, ?_, rfl⟩
  rw [trailers]
  simp only [eat?, ht, ht', Bool.false_eq_true, if_false, if_true, h, expect, hc, hr', bind,
    Except.bind, pure, Except.pure]

/-- A point and a name make a member of what they trail. -/
theorem reads_trailers_member {a : Expr} (ht : t.is "(" = false) (ht' : t.is "[" = false)
    (hp : t.is "." = true) (hk : t'.kind = .name) (hw : isKeyword t'.text = false)
    (hr : ∀ a', a'.unplaced = .member .none a.unplaced t'.text →
      Reads unplaced (trailers a' r) e r₁) : Reads unplaced (trailers a (t :: t' :: r)) e r₁ := by
  obtain ⟨c, h₂, hr', rfl⟩ := hr (.member a.pos a t'.text) rfl
  refine ⟨c, by simp; omega, ?_, rfl⟩
  rw [trailers]
  simp only [eat?, ht, ht', hp, Bool.false_eq_true, if_false, if_true, hk, hw, Bool.not_false,
    and_self, hr', bind, Except.bind, pure, Except.pure]

/-! ## Lists, indices and atoms -/

/-- A single item without a comma is read as it is. -/
theorem reads_sequence {k : Sequence} (h : Reads unplaced (item k ts) e r)
    (hr : at? "," r = false) : Reads unplaced (sequence k ts) e r := by
  obtain ⟨a, hb, h, ha⟩ := h
  refine ⟨a, hb, ?_, ha⟩
  rw [sequence, h]
  simp only [bind, Except.bind, hr, Bool.false_eq_true, if_false, pure, Except.pure]

/-- Items with commas become a tuple. -/
theorem reads_sequence_tuple {k : Sequence} (h : Reads unplaced (item k ts) e r)
    (hr : at? "," r = true) (hs : Reads (List.map unplaced) (items k r) es r₁) :
    Reads unplaced (sequence k ts) (.tuple .none (e :: es)) r₁ := by
  obtain ⟨a, h₁, h, rfl⟩ := h
  obtain ⟨as, h₂, hs, rfl⟩ := hs
  refine ⟨.tuple a.pos (a :: as), by omega, ?_, by simp⟩
  rw [sequence, h]
  simp only [bind, Except.bind, hr, if_true, hs, pure, Except.pure]

/-- There are no further items without a comma. -/
theorem reads_items_nil {k : Sequence} (hr : eat? "," r = none) :
    Reads (List.map unplaced) (items k r) [] r := by
  refine ⟨[], length_lt_succ r, ?_, rfl⟩
  rw [items, hr]

/-- A comma may stand behind the last item. -/
theorem reads_items_end {k : Sequence} (ht : t.is "," = true) (hr : k.ends r = true) :
    Reads (List.map unplaced) (items k (t :: r)) [] r := by
  refine ⟨[], by simp only [List.length_cons]; omega, ?_, rfl⟩
  rw [items]
  simp only [eat?, ht, if_true, hr]

/-- Behind a comma stands one more item. -/
theorem reads_items_cons {k : Sequence} (ht : t.is "," = true) (hr : k.ends r = false)
    (h : Reads unplaced (item k r) e r₁) (hs : Reads (List.map unplaced) (items k r₁) es r₂) :
    Reads (List.map unplaced) (items k (t :: r)) (e :: es) r₂ := by
  obtain ⟨a, h₁, h, rfl⟩ := h
  obtain ⟨as, h₂, hs, rfl⟩ := hs
  refine ⟨a :: as, by simp; omega, ?_, rfl⟩
  rw [items]
  simp only [eat?, ht, if_true, hr, Bool.false_eq_true, if_false, h, hs, bind, Except.bind, pure,
    Except.pure]

/-- There are no arguments where the bracket closes. -/
theorem reads_arguments_nil {close : String} (ht : t.is close = true) :
    Reads (List.map unplaced) (arguments close (t :: r)) [] r := by
  refine ⟨[], by simp, ?_, rfl⟩
  rw [arguments]
  simp only [eat?, ht, if_true]

/-- The last argument stands in front of the bracket that closes. -/
theorem reads_arguments_last {close : String} (hts : eat? close ts = none)
    (h : Reads unplaced (test ts) e (t :: r)) (hc : t.is "," = false) (ht : t.is close = true) :
    Reads (List.map unplaced) (arguments close ts) [e] r := by
  obtain ⟨a, h₁, h, rfl⟩ := h
  refine ⟨[a], by simp at h₁; omega, ?_, rfl⟩
  rw [arguments, hts]
  simp only [h, eat?, hc, Bool.false_eq_true, if_false, expect, ht, if_true, bind, Except.bind,
    pure, Except.pure]

/-- Behind an argument and a comma stand the others. -/
theorem reads_arguments_cons {close : String} (hts : eat? close ts = none)
    (h : Reads unplaced (test ts) e (t :: r)) (hc : t.is "," = true)
    (hs : Reads (List.map unplaced) (arguments close r) es r₁) :
    Reads (List.map unplaced) (arguments close ts) (e :: es) r₁ := by
  obtain ⟨a, h₁, h, rfl⟩ := h
  obtain ⟨as, h₂, hs, rfl⟩ := hs
  refine ⟨a :: as, by simp at h₁; omega, ?_, rfl⟩
  rw [arguments, hts]
  simp only [h, eat?, hc, if_true, hs, bind, Except.bind, pure, Except.pure]

/-- A bound of a slice may be left out. -/
theorem reads_bound_none (hr : (at? ":" r || at? "]" r || at? "," r) = true) :
    Reads (Option.map unplaced) (bound r) none r := by
  refine ⟨none, length_lt_succ r, ?_, rfl⟩
  rw [bound, if_pos hr]

/-- A bound of a slice is a test. -/
theorem reads_bound_some (hts : (at? ":" ts || at? "]" ts || at? "," ts) = false)
    (h : Reads unplaced (test ts) e r) : Reads (Option.map unplaced) (bound ts) (some e) r := by
  obtain ⟨a, h₁, h, rfl⟩ := h
  refine ⟨some a, by omega, ?_, rfl⟩
  rw [bound, if_neg (by simp [hts]), h]
  simp only [bind, Except.bind, pure, Except.pure]

/-- The image of the bounds of a slice behind its first colon. -/
def unplacedBounds (b : Option Expr × Option Expr) : Option Expr × Option Expr :=
  (b.1.map unplaced, b.2.map unplaced)

variable {lower upper step : Option Expr}

/-- A slice may have no step. -/
theorem reads_bounds (h : Reads (Option.map unplaced) (bound ts) upper r)
    (hr : eat? ":" r = none) : Reads unplacedBounds (bounds ts) (upper, none) r := by
  obtain ⟨a, h₁, h, rfl⟩ := h
  refine ⟨(a, none), h₁, ?_, rfl⟩
  rw [bounds, h]
  simp only [bind, Except.bind, hr, pure, Except.pure]

/-- Behind a second colon stands the step of a slice. -/
theorem reads_bounds_step (h : Reads (Option.map unplaced) (bound ts) upper (t :: r))
    (ht : t.is ":" = true) (h' : Reads (Option.map unplaced) (bound r) step r₁) :
    Reads unplacedBounds (bounds ts) (upper, step) r₁ := by
  obtain ⟨a, h₁, h, rfl⟩ := h
  obtain ⟨b, h₂, h', rfl⟩ := h'
  refine ⟨(a, b), by simp at h₁; omega, ?_, rfl⟩
  rw [bounds, h]
  simp only [bind, Except.bind, eat?, ht, if_true, h', pure, Except.pure]

/-- An index without a colon is a test. -/
theorem reads_index (hts : eat? ":" ts = none) (h : Reads unplaced (test ts) e r)
    (hr : eat? ":" r = none) : Reads unplaced (index ts) e r := by
  obtain ⟨a, h₁, h, rfl⟩ := h
  refine ⟨a, h₁, ?_, rfl⟩
  rw [index, hts]
  simp only [h, hr, bind, Except.bind, pure, Except.pure]

/-- A slice without a lower bound starts with a colon. -/
theorem reads_index_colon (ht : t.is ":" = true)
    (h : Reads unplacedBounds (bounds r) (upper, step) r₁) :
    Reads unplaced (index (t :: r)) (.slice .none none upper step) r₁ := by
  obtain ⟨⟨a, b⟩, h₁, h, he⟩ := h
  simp only [unplacedBounds, Prod.mk.injEq] at he
  obtain ⟨rfl, rfl⟩ := he
  refine ⟨.slice t.pos none a b, by simp; omega, ?_, by simp⟩
  rw [index]
  simp only [eat?, ht, if_true, h, bind, Except.bind, pure, Except.pure]
  rfl

/-- A slice with a lower bound has a colon behind it. -/
theorem reads_index_slice (hts : eat? ":" ts = none) (h : Reads unplaced (test ts) e (t :: r))
    (ht : t.is ":" = true) (h' : Reads unplacedBounds (bounds r) (upper, step) r₁) :
    Reads unplaced (index ts) (.slice .none (some e) upper step) r₁ := by
  obtain ⟨a₀, h₀, h, rfl⟩ := h
  obtain ⟨⟨a, b⟩, h₁, h', he⟩ := h'
  simp only [unplacedBounds, Prod.mk.injEq] at he
  obtain ⟨rfl, rfl⟩ := he
  refine ⟨.slice (peek ts).pos (some a₀) a b, by simp at h₀; omega, ?_, by simp⟩
  rw [index, hts]
  simp only [h, eat?, ht, if_true, h', bind, Except.bind, pure, Except.pure]

/-- A word that is not reserved is a name. -/
theorem reads_atom_name (hk : t.kind = .name) (hw : isKeyword t.text = false) :
    Reads unplaced (atom (t :: r)) (.name .none t.text) r := by
  have hne : ∀ w, isKeyword w = true → t.text ≠ w := by
    rintro w hw' rfl
    simp [hw] at hw'
  refine ⟨.name t.pos t.text, by simp, ?_, rfl⟩
  rw [atom]
  simp only [hk, hne "True" (by decide), hne "False" (by decide), hne "None" (by decide), hw,
    Bool.false_eq_true, if_false]

/-- The words `True` and `False` are truth values. -/
theorem reads_atom_bool (hk : t.kind = .name) {b : Bool}
    (ht : t.text = if b then "True" else "False") :
    Reads unplaced (atom (t :: r)) (.const .none (.bool b)) r := by
  refine ⟨.const t.pos (.bool b), by simp, ?_, rfl⟩
  rw [atom]
  cases b <;> simp [hk, ht, Expr.ofBool]

/-- The word `None` is the literal. -/
theorem reads_atom_none (hk : t.kind = .name) (ht : t.text = "None") :
    Reads unplaced (atom (t :: r)) (.const .none .none) r := by
  refine ⟨.const t.pos .none, by simp, ?_, rfl⟩
  rw [atom]
  simp [hk, ht]

/-- A number is the literal of its value. -/
theorem reads_atom_number (hk : t.kind = .number) {v : Constant}
    (ht : Literal.number? t.text.toList = some v) :
    Reads unplaced (atom (t :: r)) (.const .none v) r := by
  refine ⟨.const t.pos v, by simp, ?_, rfl⟩
  rw [atom]
  simp only [hk, ht]

/-- A text that no other text follows is the literal of what it stands for. -/
theorem reads_atom_str (hk : t.kind = .str) (hr : ∀ t ∈ r.head?, t.kind ≠ .str) :
    Reads unplaced (atom (t :: r))
      (.const .none (.str (String.ofList (Literal.unquote t.text.toList)))) r := by
  have hdrop : r.dropWhile (·.kind == .str) = r := by
    cases r with
    | nil => rfl
    | cons t' r => simp [hr t' rfl]
  have htake : r.takeWhile (·.kind == .str) = [] := by
    cases r with
    | nil => rfl
    | cons t' r => simp [hr t' rfl]
  refine ⟨.const t.pos (.str (String.ofList (Literal.unquote t.text.toList))), by simp, ?_, rfl⟩
  rw [atom]
  simp [hk, hdrop, htake]

/-- Brackets with nothing in them are the empty tuple. -/
theorem reads_atom_empty (hk : t.kind = .op) (ht : t.text = "(") (hc : t'.is ")" = true) :
    Reads unplaced (atom (t :: t' :: r)) (.tuple .none []) r := by
  refine ⟨.tuple t.pos [], by simp only [List.length_cons]; omega, ?_, by simp⟩
  rw [atom]
  simp only [hk, ht, if_true, eat?, hc]

/-- Brackets around something do not count. -/
theorem reads_atom_parens (hk : t.kind = .op) (ht : t.text = "(") (hts : eat? ")" ts = none)
    (h : Reads unplaced (sequence .values ts) e (t' :: r)) (hc : t'.is ")" = true) :
    Reads unplaced (atom (t :: ts)) e r := by
  obtain ⟨a, h₁, h, rfl⟩ := h
  refine ⟨a, by simp at h₁ ⊢; omega, ?_, rfl⟩
  rw [atom]
  simp only [hk, ht, if_true, hts, h, expect, bind, Except.bind, pure, Except.pure]
  simp only [eat?, hc, if_true]

/-- Square brackets make a list. -/
theorem reads_atom_list (hk : t.kind = .op) (ht : t.text = "[")
    (h : Reads (List.map unplaced) (arguments "]" ts) es r) :
    Reads unplaced (atom (t :: ts)) (.list .none es) r := by
  obtain ⟨as, h₁, h, rfl⟩ := h
  refine ⟨.list t.pos as, by simp; omega, ?_, by simp⟩
  rw [atom]
  simp only [hk, ht, h, bind, Except.bind, pure, Except.pure]
  simp

end Parser
end ValidUsage
