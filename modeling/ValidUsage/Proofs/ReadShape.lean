import ValidUsage.Proofs.ReadExpr
import ValidUsage.Proofs.Rounding
import ValidUsage.Proofs.Spelled
import ValidUsage.Syntax.Parser

/-!
# What reading gives

Whatever the tokens are, an expression that is read from them is spelled, and the tokens that it is
read from have their brackets closed and no colon directly between parentheses. Where the tokens of
comments come from comment lines only (`kept`), the comments that are read are those lines.
-/

namespace ValidUsage

namespace Expr

/-- Whether the parts of an expression are no tuples with slices, but for the index of a
subscript. -/
def isGathered : Expr → Bool
  | boolOp _ _ es | tuple _ es | list _ es => es.all (!·.isSpread)
  | binary _ left _ right => !left.isSpread && !right.isSpread
  | unary _ _ e | member _ e _ | subscript _ e _ => !e.isSpread
  | compare _ left _ es | call _ left es => !left.isSpread && es.all (!·.isSpread)
  | ifExp _ test body orelse => !test.isSpread && !body.isSpread && !orelse.isSpread
  | slice _ lower upper step =>
    lower.all (!·.isSpread) && upper.all (!·.isSpread) && step.all (!·.isSpread)
  | name .. | const .. => true

/-- Whether an expression is formed, with its number in the form that rounding gives it and its
slices in indices, and stands for a comment of a line if it stands for one and comments are kept
from lines. -/
def isSound (kept : Bool) (e : Expr) : Bool :=
  e.isFormed Binary64.isCanonical && e.isGathered && (!kept || (Stmt.expr .none e).isKept)

/-- A sound expression is formed, with numbers in the form that rounding gives them. -/
theorem isFormed_of_isSound {kept : Bool} {e : Expr} (h : e.isSound kept = true) :
    e.isFormed Binary64.isCanonical = true :=
  (Bool.and_eq_true_iff.1 (Bool.and_eq_true_iff.1 h).1).1

/-- The parts of a sound expression are no tuples with slices. -/
theorem isGathered_of_isSound {kept : Bool} {e : Expr} (h : e.isSound kept = true) :
    e.isGathered = true := (Bool.and_eq_true_iff.1 (Bool.and_eq_true_iff.1 h).1).2

end Expr

namespace Parser

/-- Whether the text of a comment line follows, between parentheses. -/
def OpensComment (r : List Token) : Prop :=
  ∃ t₁ t₂ t₃ r', r = t₁ :: t₂ :: t₃ :: r' ∧ t₁.is "(" = true ∧ t₂.kind = .str ∧
    isCommentText (String.ofList (Literal.unquote t₂.text.toList)) = true ∧ t₃.is ")" = true

/-- Whether names are words and, if `kept`, what stands for a comment does so with the text of a
comment line. -/
structure AreSound (kept : Bool) (ts : List Token) : Prop where
  words : ∀ t ∈ ts, t.kind = .name → IsWord t.text
  comments : kept = true → ∀ pre t r, ts = pre ++ t :: r → t.kind = .name →
    t.text = commentName → OpensComment r

variable {kept : Bool}

/-- What stands at the end of sound tokens is sound. -/
theorem AreSound.right {pre r : List Token} (h : AreSound kept (pre ++ r)) : AreSound kept r where
  words t ht := h.words t (List.mem_append_right _ ht)
  comments hk pre' t r' he := h.comments hk (pre ++ pre') t r' (by rw [he, List.append_assoc])

/-- So is what stands behind the first of them. -/
theorem AreSound.tail {t : Token} {r : List Token} (h : AreSound kept (t :: r)) : AreSound kept r :=
  AreSound.right (show AreSound kept ([t] ++ r) from h)

/-- The open brackets, the innermost first and parentheses as `true`, after a token; none if the
token is a colon directly between parentheses. -/
def brackets? (stack : List Bool) (t : Token) : Option (List Bool) :=
  if t.is "(" then some (true :: stack)
  else if t.is "[" then some (false :: stack)
  else if t.is ")" || t.is "]" then some stack.tail
  else if t.is ":" then if stack.head? = some true then none else some stack
  else some stack

/-- The open brackets after some tokens. -/
def bracketsAfter? (stack : List Bool) (ts : List Token) : Option (List Bool) :=
  ts.foldlM brackets? stack

@[simp] theorem bracketsAfter?_nil (stack : List Bool) : bracketsAfter? stack [] = some stack := rfl

@[simp] theorem bracketsAfter?_cons (stack : List Bool) (t : Token) (ts : List Token) :
    bracketsAfter? stack (t :: ts) = (brackets? stack t).bind (bracketsAfter? · ts) := rfl

@[simp] theorem bracketsAfter?_append (stack : List Bool) (ts ts' : List Token) :
    bracketsAfter? stack (ts ++ ts') =
      (bracketsAfter? stack ts).bind (bracketsAfter? · ts') :=
  List.foldlM_append ..

/-- Any place. -/
def Anywhere (_ : List Bool) : Prop := True

/-- A place directly in a subscript. -/
def InSubscript (stack : List Bool) : Prop := stack.head? = some false

/-- Whether the tokens up to some others close their brackets and have no colon directly between
parentheses, at places of a kind. -/
def Passes (C : List Bool → Prop) (ts r : List Token) : Prop :=
  ∃ pre, ts = pre ++ r ∧ ∀ stack, C stack → bracketsAfter? stack pre = some stack

section Passes

variable {C : List Bool → Prop} {ts r r' : List Token} {t t' : Token} {text : String}

/-- Taking no tokens passes. -/
theorem Passes.refl (ts : List Token) : Passes C ts ts := ⟨[], rfl, fun _ _ => rfl⟩

/-- What passes to tokens passes to those that these pass to. -/
theorem Passes.trans (h : Passes C ts r) (h' : Passes C r r') : Passes C ts r' := by
  obtain ⟨pre, rfl, hp⟩ := h
  obtain ⟨pre', rfl, hp'⟩ := h'
  refine ⟨pre ++ pre', (List.append_assoc ..).symm, fun stack hs => ?_⟩
  rw [bracketsAfter?_append, hp stack hs]
  exact hp' stack hs

/-- What passes at all places passes at those of a kind. -/
theorem Passes.mono (h : Passes Anywhere ts r) : Passes C ts r := by
  obtain ⟨pre, he, hp⟩ := h
  exact ⟨pre, he, fun stack _ => hp stack trivial⟩

/-- Sound tokens pass to sound ones. -/
theorem Passes.areSound (h : Passes C ts r) (hs : AreSound kept ts) : AreSound kept r := by
  obtain ⟨pre, rfl, -⟩ := h
  exact hs.right

/-- A token has one text. -/
theorem is_of_is {text' : String} (h : t.is text = true) (hne : text ≠ text') :
    t.is text' = false := by
  simp only [Token.is, Bool.and_eq_true, beq_iff_eq] at h
  exact is_eq_false (h.2 ▸ hne)

/-- Whether a token neither opens nor closes brackets and is no colon. -/
def IsPlain (t : Token) : Prop := ∀ text ∈ ["(", "[", ")", "]", ":"], t.is text = false

/-- A token whose text is no bracket and no colon is plain. -/
theorem IsPlain.of_is (h : t.is text = true) (ht : text ∉ ["(", "[", ")", "]", ":"]) : IsPlain t :=
  fun _ hm => is_of_is h fun he => ht (he ▸ hm)

/-- A word is plain. -/
theorem IsPlain.of_isWord (h : IsWord t.text) : IsPlain t := by
  have hall : ∀ text ∈ ["(", "[", ")", "]", ":"],
      text.toList.head?.any Text.isNameStart = false := by decide
  intro text hm
  refine is_eq_false fun he => ?_
  obtain ⟨c, cs, hl, hc, -⟩ := h
  have hstart := hall text hm
  rw [← he, hl] at hstart
  exact absurd hc (by simpa using hstart)

/-- A token that is neither an operator nor a name is plain. -/
theorem IsPlain.of_kind (h : t.kind ≠ .op) (h' : t.kind ≠ .name) : IsPlain t :=
  fun text _ => by simp [Token.is, h, h']

/-- Taking a plain token passes. -/
theorem Passes.plain (h : IsPlain t) (r : List Token) : Passes C (t :: r) r := by
  refine ⟨[t], rfl, fun stack _ => ?_⟩
  have hp (text : String) (hm : text ∈ ["(", "[", ")", "]", ":"]) : t.is text = false := h text hm
  simp [brackets?, hp "(" (by decide), hp "[" (by decide), hp ")" (by decide), hp "]" (by decide),
    hp ":" (by decide)]

private theorem Passes.plains {pre : List Token} (h : ∀ t ∈ pre, IsPlain t) (r : List Token) :
    Passes C (pre ++ r) r := by
  induction pre with
  | nil => exact .refl r
  | cons t pre ih =>
    obtain ⟨ht, hpre⟩ := List.forall_mem_cons.1 h
    exact (Passes.plain ht (pre ++ r)).trans (ih hpre)

/-- What is between parentheses passes with them. -/
theorem Passes.parens (ht : t.is "(" = true) (h : Passes Anywhere ts (t' :: r))
    (ht' : t'.is ")" = true) : Passes C (t :: ts) r := by
  obtain ⟨pre, rfl, hp⟩ := h
  refine ⟨t :: (pre ++ [t']), by simp, fun stack _ => ?_⟩
  have h₁ := is_of_is ht' (show ")" ≠ "(" by decide)
  have h₂ := is_of_is ht' (show ")" ≠ "[" by decide)
  simp [brackets?, ht, hp (true :: stack) trivial, h₁, h₂, ht']

/-- What is directly between brackets passes with them. -/
theorem Passes.subscript (ht : t.is "[" = true) (h : Passes InSubscript ts (t' :: r))
    (ht' : t'.is "]" = true) : Passes C (t :: ts) r := by
  obtain ⟨pre, rfl, hp⟩ := h
  refine ⟨t :: (pre ++ [t']), by simp, fun stack _ => ?_⟩
  have h₀ := is_of_is ht (show "[" ≠ "(" by decide)
  have h₁ := is_of_is ht' (show "]" ≠ "(" by decide)
  have h₂ := is_of_is ht' (show "]" ≠ "[" by decide)
  simp [brackets?, h₀, ht, hp (false :: stack) rfl, h₁, h₂, ht']

/-- A colon directly in a subscript. -/
theorem Passes.colon (ht : t.is ":" = true) (r : List Token) : Passes InSubscript (t :: r) r := by
  refine ⟨[t], rfl, fun stack hs => ?_⟩
  have h (text : String) (hne : ":" ≠ text) : t.is text = false := is_of_is ht hne
  have hs : stack.head? = some false := hs
  simp [brackets?, h "(" (by decide), h "[" (by decide), h ")" (by decide), h "]" (by decide), ht,
    hs]

end Passes

/-- Whether what is read has a property, and the tokens it is read from pass. -/
def Gives {α : Type} {n : Nat} (C : List Bool → Prop) (P : α → Prop) (x : Parse α n)
    (ts : List Token) : Prop :=
  ∀ v r h, x = .ok ⟨v, r, h⟩ → Passes C ts r ∧ P v

/-- What reading an expression gives, which is a slice only if slices are read. -/
structure IsGiven (kept slices : Bool) (e : Expr) : Prop where
  /-- All parts are formed, and comments are those of comment lines. -/
  nodes : e.walk.all (Expr.isSound kept) = true
  /-- It is no slice, unless slices are read. -/
  solid : slices = false → e.isSlice = false
  /-- It is not the bare name that stands for comments. -/
  named : kept = true → e.name? ≠ some commentName
  /-- It is no tuple with slices. -/
  gathered : e.isSpread = false

/-- Two steps succeed only if each of them does. -/
theorem ok_of_bind {α β ε : Type} {x : Except ε α} {f : α → Except ε β} {b : β}
    (h : x >>= f = .ok b) : ∃ a, x = .ok a ∧ f a = .ok b := by
  cases x with
  | error e => exact absurd h nofun
  | ok a => exact ⟨a, rfl, h⟩

/-- A text that is taken stands at the front. -/
theorem eq_cons_of_eat? {text : String} {ts r : List Token} {h : r.length < ts.length}
    (he : eat? text ts = some ⟨r, h⟩) : ∃ t, ts = t :: r ∧ t.is text = true := by
  cases ts with
  | nil => cases he
  | cons t r' =>
    simp only [eat?] at he
    split at he
    · rename_i ht
      obtain ⟨rfl⟩ := Subtype.mk.inj (Option.some.inj he)
      exact ⟨t, rfl, ht⟩
    · cases he

/-- So does one that is expected and found. -/
theorem eq_cons_of_expect {text : String} {ts r : List Token} {h : r.length < ts.length}
    (he : expect text ts = .ok ⟨r, h⟩) : ∃ t, ts = t :: r ∧ t.is text = true := by
  unfold expect at he
  split at he
  · rename_i r' heat
    obtain ⟨rfl⟩ := Subtype.mk.inj (Except.ok.inj he)
    exact eq_cons_of_eat? heat
  · exact absurd he nofun

section Given

variable {e left right value index cond body orelse : Expr} {es : List Expr}

/-- What is given where no slices are read is given where they are. -/
theorem IsGiven.mono (h : IsGiven kept false e) (slices : Bool) : IsGiven kept slices e :=
  ⟨h.nodes, fun _ => h.solid rfl, h.named, h.gathered⟩

/-- What is given where no slices are read is none. -/
theorem all_not_isSlice (h : ∀ e ∈ es, IsGiven kept false e) : es.all (!·.isSlice) = true :=
  List.all_eq_true.2 fun e he => by simp [(h e he).solid rfl]

/-- What is given is no tuple with slices. -/
theorem all_not_isSpread {slices : Bool} (h : ∀ e ∈ es, IsGiven kept slices e) :
    es.all (!·.isSpread) = true :=
  List.all_eq_true.2 fun e he => by simp [(h e he).gathered]

/-- All parts of what is given are sound. -/
theorem all_isSound_walkList {slices : Bool} (h : ∀ e ∈ es, IsGiven kept slices e) :
    (Expr.walkList es).all (Expr.isSound kept) = true :=
  Expr.all_walkList.2 fun e he => (h e he).nodes

private theorem isGiven_boolOp (p : Pos) (op : BoolOp) (h : ∀ e ∈ es, IsGiven kept false e)
    (hlen : 2 ≤ es.length) : IsGiven kept false (.boolOp p op es) := by
  refine ⟨?_, fun _ => rfl, fun _ => nofun, rfl⟩
  simp [Expr.walk, Expr.isSound, Expr.isFormed, Expr.isGathered, Stmt.isKept, Stmt.comment?,
    hlen, all_isSound_walkList h, all_not_isSlice h, all_not_isSpread h]

private theorem isGiven_binary (p : Pos) (op : BinOp) (hl : IsGiven kept false left)
    (hr : IsGiven kept false right) : IsGiven kept false (.binary p left op right) := by
  refine ⟨?_, fun _ => rfl, fun _ => nofun, rfl⟩
  simp [Expr.walk, Expr.isSound, Expr.isFormed, Expr.isGathered, Stmt.isKept, Stmt.comment?,
    hl.nodes, hr.nodes, hl.solid rfl, hr.solid rfl, hl.gathered, hr.gathered]

private theorem isGiven_unary (p : Pos) (op : UnaryOp) (h : IsGiven kept false e) :
    IsGiven kept false (.unary p op e) := by
  refine ⟨?_, fun _ => rfl, fun _ => nofun, rfl⟩
  simp [Expr.walk, Expr.isSound, Expr.isFormed, Expr.isGathered, Stmt.isKept, Stmt.comment?,
    h.nodes, h.solid rfl, h.gathered]

private theorem isGiven_compare (p : Pos) {ops : List CmpOp} (hl : IsGiven kept false left)
    (h : ∀ e ∈ es, IsGiven kept false e) (hne : ops ≠ []) (hlen : ops.length = es.length) :
    IsGiven kept false (.compare p left ops es) := by
  refine ⟨?_, fun _ => rfl, fun _ => nofun, rfl⟩
  simp [Expr.walk, Expr.isSound, Expr.isFormed, Expr.isGathered, Stmt.isKept, Stmt.comment?,
    hl.nodes, hl.solid rfl, hl.gathered, hne, hlen, all_isSound_walkList h, all_not_isSlice h,
    all_not_isSpread h]

private theorem isGiven_member (p : Pos) {attr : String} (h : e.walk.all (Expr.isSound kept) = true)
    (hs : e.isSlice = false) (hg : e.isSpread = false) (ha : isIdentifier attr = true) :
    IsGiven kept false (.member p e attr) := by
  refine ⟨?_, fun _ => rfl, fun _ => nofun, rfl⟩
  simp [Expr.walk, Expr.isSound, Expr.isFormed, Expr.isGathered, Stmt.isKept, Stmt.comment?, h,
    hs, hg, ha]

private theorem isGiven_subscript (p : Pos) (h : e.walk.all (Expr.isSound kept) = true)
    (hs : e.isSlice = false) (hg : e.isSpread = false)
    (hi : index.walk.all (Expr.isSound kept) = true) :
    IsGiven kept false (.subscript p e index) := by
  refine ⟨?_, fun _ => rfl, fun _ => nofun, rfl⟩
  simp [Expr.walk, Expr.isSound, Expr.isFormed, Expr.isGathered, Stmt.isKept, Stmt.comment?, h,
    hs, hg, hi]

private theorem isGiven_ifExp (p : Pos) (hc : IsGiven kept false cond)
    (hb : IsGiven kept false body)
    (ho : IsGiven kept false orelse) : IsGiven kept false (.ifExp p cond body orelse) := by
  refine ⟨?_, fun _ => rfl, fun _ => nofun, rfl⟩
  simp [Expr.walk, Expr.isSound, Expr.isFormed, Expr.isGathered, Stmt.isKept, Stmt.comment?,
    hc.nodes, hb.nodes, ho.nodes, hc.solid rfl, hb.solid rfl, ho.solid rfl, hc.gathered,
    hb.gathered, ho.gathered]

private theorem isGiven_const (p : Pos) {v : Constant}
    (h : v.isWritable Binary64.isCanonical = true) :
    IsGiven kept false (.const p v) := by
  refine ⟨?_, fun _ => rfl, fun _ => nofun, rfl⟩
  simp [Expr.walk, Expr.isSound, Expr.isFormed, Expr.isGathered, Stmt.isKept, Stmt.comment?, h]

private theorem all_isSound_tuple {slices : Bool} (p : Pos) (h : ∀ e ∈ es, IsGiven kept slices e) :
    (Expr.tuple p es).walk.all (Expr.isSound kept) = true := by
  simp [Expr.walk, Expr.isSound, Expr.isFormed, Expr.isGathered, Stmt.isKept, Stmt.comment?,
    all_isSound_walkList h, all_not_isSpread h]

private theorem isGiven_tuple (p : Pos) (h : ∀ e ∈ es, IsGiven kept false e) :
    IsGiven kept false (.tuple p es) := by
  refine ⟨all_isSound_tuple p h, fun _ => rfl, fun _ => nofun, ?_⟩
  rw [Expr.isSpread, List.any_eq_false]
  exact fun e he => by simp [(h e he).solid rfl]

private theorem isGiven_list (p : Pos) (h : ∀ e ∈ es, IsGiven kept false e) :
    IsGiven kept false (.list p es) := by
  refine ⟨?_, fun _ => rfl, fun _ => nofun, rfl⟩
  simp [Expr.walk, Expr.isSound, Expr.isFormed, Expr.isGathered, Stmt.isKept, Stmt.comment?,
    all_isSound_walkList h, all_not_isSlice h, all_not_isSpread h]

private theorem isGiven_slice (p : Pos) {lower upper step : Option Expr}
    (hl : ∀ e ∈ lower, IsGiven kept false e) (hu : ∀ e ∈ upper, IsGiven kept false e)
    (hs : ∀ e ∈ step, IsGiven kept false e) : IsGiven kept true (.slice p lower upper step) := by
  have hbound {o : Option Expr} (h : ∀ e ∈ o, IsGiven kept false e) :
      (Expr.walkOption o).all (Expr.isSound kept) = true ∧ o.all (!·.isSlice) = true ∧
        o.all (!·.isSpread) = true := by
    cases o with
    | none => exact ⟨rfl, rfl, rfl⟩
    | some e => simp [Expr.walkOption, (h e rfl).nodes, (h e rfl).solid rfl, (h e rfl).gathered]
  refine ⟨?_, (by rintro ⟨⟩), fun _ => (by rintro ⟨⟩), rfl⟩
  simp [Expr.walk, Expr.isSound, Expr.isFormed, Expr.isGathered, Stmt.isKept, Stmt.comment?,
    hbound hl, hbound hu, hbound hs]

end Given

/-- Whether the items of a list may be slices. -/
def Sequence.slices : Sequence → Bool
  | .indices => true
  | .values | .targets => false

/-- Where a list of items stands. -/
def Sequence.Place : Sequence → List Bool → Prop
  | .indices => InSubscript
  | .values | .targets => Anywhere

/-- What reading a list of items gives: an expression that is no tuple with slices, except in a
subscript. -/
def Sequence.Given (kept : Bool) : Sequence → Expr → Prop
  | .indices, e => e.walk.all (Expr.isSound kept) = true
  | .values, e | .targets, e => IsGiven kept false e

/-- What reading several expressions gives. -/
def AreGiven (kept slices : Bool) (es : List Expr) : Prop := ∀ e ∈ es, IsGiven kept slices e

/-- What reading a bound of a slice gives. -/
def IsGivenBound (kept : Bool) (o : Option Expr) : Prop := ∀ e ∈ o, IsGiven kept false e

section Readers

variable {ts r : List Token}

private theorem gives_sequence {k : Sequence} (hs : AreSound kept ts)
    (hi : Gives k.Place (IsGiven kept k.slices) (item k ts) ts)
    (hr : ∀ r, r.length < ts.length → AreSound kept r →
      Gives k.Place (AreGiven kept k.slices) (items k r) r) :
    Gives k.Place (k.Given kept) (sequence k ts) ts := by
  intro v r h he
  rw [sequence] at he
  obtain ⟨⟨first, r₁, h₁⟩, hf, he⟩ := ok_of_bind he
  obtain ⟨hp, hv⟩ := hi _ _ _ hf
  dsimp only at he
  split at he
  · obtain ⟨⟨others, r₂, h₂⟩, ho, he⟩ := ok_of_bind he
    cases he
    obtain ⟨hp', hvs⟩ := hr r₁ h₁ (hp.areSound hs) _ _ _ ho
    have hall := List.forall_mem_cons.2 ⟨hv, hvs⟩
    refine ⟨hp.trans hp', ?_⟩
    cases k with
    | indices => exact all_isSound_tuple _ hall
    | values | targets => exact isGiven_tuple _ hall
  · cases he
    refine ⟨hp, ?_⟩
    cases k with
    | indices => exact hv.nodes
    | values | targets => exact hv

private theorem gives_items {k : Sequence} (hs : AreSound kept ts)
    (hi : ∀ r, r.length < ts.length → AreSound kept r →
      Gives k.Place (IsGiven kept k.slices) (item k r) r)
    (hr : ∀ r, r.length < ts.length → AreSound kept r →
      Gives k.Place (AreGiven kept k.slices) (items k r) r) :
    Gives k.Place (AreGiven kept k.slices) (items k ts) ts := by
  intro v r h hv
  rw [items] at hv
  split at hv
  · cases hv
    exact ⟨.refl _, nofun⟩
  · rename_i r₁ h₁ heat
    obtain ⟨t, rfl, ht⟩ := eq_cons_of_eat? heat
    have hp : Passes k.Place (t :: r₁) r₁ := .plain (.of_is ht (by decide)) r₁
    split at hv
    · cases hv
      exact ⟨hp, nofun⟩
    · obtain ⟨⟨e, r₂, h₂⟩, he, hv⟩ := ok_of_bind hv
      obtain ⟨hp', hge⟩ := hi r₁ h₁ (hp.areSound hs) _ _ _ he
      have hp := hp.trans hp'
      obtain ⟨⟨es, r₃, h₃⟩, hes, hv⟩ := ok_of_bind hv
      obtain ⟨hp', hges⟩ := hr r₂ (by omega) (hp.areSound hs) _ _ _ hes
      cases hv
      exact ⟨hp.trans hp', List.forall_mem_cons.2 ⟨hge, hges⟩⟩

/-! ### Indices -/

private theorem gives_item {k : Sequence}
    (hv : k = .values → Gives Anywhere (IsGiven kept false) (test ts) ts)
    (ht : k = .targets → Gives Anywhere (IsGiven kept false) (binary .bitOr ts) ts)
    (hi : k = .indices → Gives InSubscript (IsGiven kept true) (index ts) ts) :
    Gives k.Place (IsGiven kept k.slices) (item k ts) ts := by
  cases k with
  | values => rw [item]; exact hv rfl
  | targets => rw [item]; exact ht rfl
  | indices => rw [item]; exact hi rfl

/-- What reading the bounds behind the first colon of a slice gives. -/
def AreGivenBounds (kept : Bool) (b : Option Expr × Option Expr) : Prop :=
  IsGivenBound kept b.1 ∧ IsGivenBound kept b.2

private theorem gives_index (hs : AreSound kept ts)
    (ht : Gives Anywhere (IsGiven kept false) (test ts) ts)
    (hb : ∀ r, r.length < ts.length → AreSound kept r →
      Gives InSubscript (AreGivenBounds kept) (bounds r) r) :
    Gives InSubscript (IsGiven kept true) (index ts) ts := by
  intro v r h hv
  rw [index] at hv
  dsimp only at hv
  split at hv
  · rename_i r₁ h₁ heat
    obtain ⟨t, rfl, htc⟩ := eq_cons_of_eat? heat
    have hcolon := Passes.colon htc r₁
    obtain ⟨⟨⟨upper, step⟩, r₂, h₂⟩, hbounds, hv⟩ := ok_of_bind hv
    obtain ⟨hp, hu, hst⟩ := hb r₁ h₁ (hcolon.areSound hs) _ _ _ hbounds
    cases hv
    exact ⟨hcolon.trans hp, isGiven_slice _ nofun hu hst⟩
  · obtain ⟨⟨e, r₁, h₁⟩, hte, hv⟩ := ok_of_bind hv
    obtain ⟨hp, hge⟩ := ht _ _ _ hte
    dsimp only at hv
    split at hv
    · cases hv
      exact ⟨hp.mono, hge.mono _⟩
    · rename_i r₂ h₂ heat
      obtain ⟨t, rfl, htc⟩ := eq_cons_of_eat? heat
      have hcolon := hp.mono.trans (Passes.colon htc r₂)
      obtain ⟨⟨⟨upper, step⟩, r₃, h₃⟩, hbounds, hv⟩ := ok_of_bind hv
      obtain ⟨hp', hu, hst⟩ := hb r₂ (Nat.lt_trans h₂ h₁) (hcolon.areSound hs) _ _ _ hbounds
      cases hv
      exact ⟨hcolon.trans hp', isGiven_slice _ (fun e' he' => by cases he'; exact hge) hu hst⟩

private theorem gives_bounds (hs : AreSound kept ts)
    (hb : Gives Anywhere (IsGivenBound kept) (bound ts) ts)
    (hb' : ∀ r, r.length < ts.length → AreSound kept r →
      Gives Anywhere (IsGivenBound kept) (bound r) r) :
    Gives InSubscript (AreGivenBounds kept) (bounds ts) ts := by
  intro v r h hv
  rw [bounds] at hv
  obtain ⟨⟨upper, r₁, h₁⟩, hu, hv⟩ := ok_of_bind hv
  obtain ⟨hp, hgu⟩ := hb _ _ _ hu
  dsimp only at hv
  split at hv
  · cases hv
    exact ⟨hp.mono, hgu, nofun⟩
  · rename_i r₂ h₂ heat
    obtain ⟨t, rfl, ht⟩ := eq_cons_of_eat? heat
    have hcolon := hp.mono.trans (Passes.colon ht r₂)
    obtain ⟨⟨step, r₃, h₃⟩, hst, hv⟩ := ok_of_bind hv
    obtain ⟨hp', hgs⟩ := hb' r₂ (by omega) (hcolon.areSound hs) _ _ _ hst
    cases hv
    exact ⟨hcolon.trans hp'.mono, hgu, hgs⟩

private theorem gives_bound (ht : Gives Anywhere (IsGiven kept false) (test ts) ts) :
    Gives Anywhere (IsGivenBound kept) (bound ts) ts := by
  intro v r h hv
  rw [bound] at hv
  split at hv
  · cases hv
    exact ⟨.refl _, (by rintro _ ⟨⟩)⟩
  · obtain ⟨⟨e, r₁, h₁⟩, hte, hv⟩ := ok_of_bind hv
    obtain ⟨hp, hge⟩ := ht _ _ _ hte
    cases hv
    exact ⟨hp, fun e' he' => by cases he'; exact hge⟩

/-! ### Conditions and comparisons -/

private theorem gives_test (hs : AreSound kept ts)
    (hj : Gives Anywhere (IsGiven kept false) (joined .or ts) ts)
    (hj' : ∀ r, r.length < ts.length → AreSound kept r →
      Gives Anywhere (IsGiven kept false) (joined .or r) r)
    (ht : ∀ r, r.length < ts.length → AreSound kept r →
      Gives Anywhere (IsGiven kept false) (test r) r) :
    Gives Anywhere (IsGiven kept false) (test ts) ts := by
  intro v r h hv
  rw [test] at hv
  obtain ⟨⟨body, r₀, h₀⟩, hbody, hv⟩ := ok_of_bind hv
  obtain ⟨hp, hgb⟩ := hj _ _ _ hbody
  dsimp only at hv
  split at hv
  · cases hv
    exact ⟨hp, hgb⟩
  · rename_i r₁ h₁ heat
    obtain ⟨t, rfl, hif⟩ := eq_cons_of_eat? heat
    have hp := hp.trans (.plain (.of_is hif (by decide)) r₁)
    obtain ⟨⟨cond, r₂, h₂⟩, hcond, hv⟩ := ok_of_bind hv
    obtain ⟨hp', hgc⟩ := hj' r₁ (by omega) (hp.areSound hs) _ _ _ hcond
    have hp := hp.trans hp'
    obtain ⟨⟨r₃, h₃⟩, helse, hv⟩ := ok_of_bind hv
    obtain ⟨t', rfl, ht'⟩ := eq_cons_of_expect helse
    have hp := hp.trans (.plain (.of_is ht' (by decide)) r₃)
    obtain ⟨⟨orelse, r₄, h₄⟩, horelse, hv⟩ := ok_of_bind hv
    have hlt : r₃.length < ts.length := Nat.lt_trans h₃ (Nat.lt_trans h₂ (Nat.lt_trans h₁ h₀))
    obtain ⟨hp', hgo⟩ := ht r₃ hlt (hp.areSound hs) _ _ _ horelse
    cases hv
    exact ⟨hp.trans hp', isGiven_ifExp _ hgc hgb hgo⟩

/-- What reading the conditions behind the first one gives: some if the operator is next. -/
def AreOperands (kept : Bool) (op : BoolOp) (ts : List Token) (es : List Expr) : Prop :=
  AreGiven kept false es ∧ (at? op.spelling ts = true → es ≠ [])

private theorem gives_joined {op : BoolOp} (hs : AreSound kept ts)
    (ho : Gives Anywhere (IsGiven kept false) (operand op ts) ts)
    (hr : ∀ r, r.length < ts.length → AreSound kept r →
      Gives Anywhere (AreOperands kept op r) (operands op r) r) :
    Gives Anywhere (IsGiven kept false) (joined op ts) ts := by
  intro v r h hv
  rw [joined] at hv
  obtain ⟨⟨first, r₁, h₁⟩, hfirst, hv⟩ := ok_of_bind hv
  obtain ⟨hp, hgf⟩ := ho _ _ _ hfirst
  dsimp only at hv
  split at hv
  · rename_i hat
    obtain ⟨⟨others, r₂, h₂⟩, hothers, hv⟩ := ok_of_bind hv
    obtain ⟨hp', hgo, hne⟩ := hr r₁ h₁ (hp.areSound hs) _ _ _ hothers
    cases hv
    refine ⟨hp.trans hp', isGiven_boolOp _ _ (List.forall_mem_cons.2 ⟨hgf, hgo⟩) ?_⟩
    have := List.length_pos_iff.2 (hne hat)
    simp only [List.length_cons]
    omega
  · cases hv
    exact ⟨hp, hgf⟩

private theorem gives_operands {op : BoolOp} (hs : AreSound kept ts)
    (ho : ∀ r, r.length < ts.length → AreSound kept r →
      Gives Anywhere (IsGiven kept false) (operand op r) r)
    (hr : ∀ r, r.length < ts.length → AreSound kept r →
      Gives Anywhere (AreOperands kept op r) (operands op r) r) :
    Gives Anywhere (AreOperands kept op ts) (operands op ts) ts := by
  intro v r h hv
  rw [operands] at hv
  split at hv
  · rename_i heat
    cases hv
    refine ⟨.refl _, (by rintro _ ⟨⟩), fun hat => ?_⟩
    cases ts with
    | nil => cases op <;> exact absurd hat (by decide)
    | cons t ts => simp [eat?, show t.is op.spelling = true from hat] at heat
  · rename_i r₁ h₁ heat
    obtain ⟨t, rfl, ht⟩ := eq_cons_of_eat? heat
    have hp : Passes Anywhere (t :: r₁) r₁ := .plain (.of_is ht (by cases op <;> decide)) r₁
    obtain ⟨⟨e, r₂, h₂⟩, he, hv⟩ := ok_of_bind hv
    obtain ⟨hp', hge⟩ := ho r₁ h₁ (hp.areSound hs) _ _ _ he
    have hp := hp.trans hp'
    obtain ⟨⟨es, r₃, h₃⟩, hes, hv⟩ := ok_of_bind hv
    obtain ⟨hp', hges, -⟩ := hr r₂ (by omega) (hp.areSound hs) _ _ _ hes
    cases hv
    exact ⟨hp.trans hp', List.forall_mem_cons.2 ⟨hge, hges⟩, fun _ => (by rintro ⟨⟩)⟩

private theorem gives_operand {op : BoolOp}
    (hj : op = .or → Gives Anywhere (IsGiven kept false) (joined .and ts) ts)
    (hn : op = .and → Gives Anywhere (IsGiven kept false) (negation ts) ts) :
    Gives Anywhere (IsGiven kept false) (operand op ts) ts := by
  cases op with
  | or => rw [operand]; exact hj rfl
  | and => rw [operand]; exact hn rfl

private theorem gives_negation (hs : AreSound kept ts)
    (hn : ∀ r, r.length < ts.length → AreSound kept r →
      Gives Anywhere (IsGiven kept false) (negation r) r)
    (hc : Gives Anywhere (IsGiven kept false) (comparison ts) ts) :
    Gives Anywhere (IsGiven kept false) (negation ts) ts := by
  intro v r h hv
  rw [negation] at hv
  split at hv
  · rename_i r₁ h₁ heat
    obtain ⟨t, rfl, ht⟩ := eq_cons_of_eat? heat
    have hp : Passes Anywhere (t :: r₁) r₁ := .plain (.of_is ht (by decide)) r₁
    obtain ⟨⟨e, r₂, h₂⟩, he, hv⟩ := ok_of_bind hv
    obtain ⟨hp', hge⟩ := hn r₁ h₁ (hp.areSound hs) _ _ _ he
    cases hv
    exact ⟨hp.trans hp', isGiven_unary _ _ hge⟩
  · exact hc _ _ _ hv

/-- What reading operators with operands gives: an operand for each operator. -/
def AreComparators (kept : Bool) (c : List CmpOp × List Expr) : Prop :=
  c.1.length = c.2.length ∧ AreGiven kept false c.2

private theorem gives_comparison (hs : AreSound kept ts)
    (hb : Gives Anywhere (IsGiven kept false) (binary .bitOr ts) ts)
    (hc : ∀ r, r.length < ts.length → AreSound kept r →
      Gives Anywhere (AreComparators kept) (comparators r) r) :
    Gives Anywhere (IsGiven kept false) (comparison ts) ts := by
  intro v r h hv
  rw [comparison] at hv
  obtain ⟨⟨left, r₁, h₁⟩, hleft, hv⟩ := ok_of_bind hv
  obtain ⟨hp, hgl⟩ := hb _ _ _ hleft
  obtain ⟨⟨⟨ops, es⟩, r₂, h₂⟩, hcs, hv⟩ := ok_of_bind hv
  obtain ⟨hp', hlen, hges⟩ := hc r₁ h₁ (hp.areSound hs) _ _ _ hcs
  dsimp only at hv
  split at hv
  · cases hv
    exact ⟨hp.trans hp', hgl⟩
  · rename_i hne
    cases hv
    exact ⟨hp.trans hp', isGiven_compare _ hgl hges hne hlen⟩

/-- The signs and words of comparisons. -/
def comparisonWords : List String := ["==", "!=", "<", "<=", ">", ">=", "in", "is", "not"]

/-- The operator of a comparison is one token or two, each a sign or a word of comparisons. -/
theorem words_of_cmpOp? {op : CmpOp} {h₀ : r.length < ts.length}
    (h : cmpOp? ts = some ⟨op, r, h₀⟩) :
    ∃ pre, ts = pre ++ r ∧ ∀ t ∈ pre, ∃ text ∈ comparisonWords, t.is text = true := by
  unfold cmpOp? at h
  split at h
  · cases h
  · rename_i t r'
    split at h
    iterate 6
      rename_i hk ht
      obtain ⟨rfl, rfl⟩ : _ ∧ r' = r := by simpa using h
      exact ⟨[t], rfl, List.forall_mem_singleton.2 ⟨_, by decide, is_of_op hk ht⟩⟩
    · rename_i hk ht
      obtain ⟨rfl, rfl⟩ : _ ∧ r' = r := by simpa using h
      exact ⟨[t], rfl, List.forall_mem_singleton.2 ⟨_, by decide, is_of_name hk ht⟩⟩
    · rename_i hk ht
      split at h
      · rename_i r'' h'' heat
        obtain ⟨rfl, rfl⟩ : _ ∧ r'' = r := by simpa using h
        obtain ⟨t', rfl, ht'⟩ := eq_cons_of_eat? heat
        exact ⟨[t, t'], rfl, List.forall_mem_cons.2 ⟨⟨_, by decide, is_of_name hk ht⟩,
          List.forall_mem_singleton.2 ⟨_, by decide, ht'⟩⟩⟩
      · obtain ⟨rfl, rfl⟩ : _ ∧ r' = r := by simpa using h
        exact ⟨[t], rfl, List.forall_mem_singleton.2 ⟨_, by decide, is_of_name hk ht⟩⟩
    · rename_i hk ht
      split at h
      · rename_i r'' h'' heat
        obtain ⟨rfl, rfl⟩ : _ ∧ r'' = r := by simpa using h
        obtain ⟨t', rfl, ht'⟩ := eq_cons_of_eat? heat
        exact ⟨[t, t'], rfl, List.forall_mem_cons.2 ⟨⟨_, by decide, is_of_name hk ht⟩,
          List.forall_mem_singleton.2 ⟨_, by decide, ht'⟩⟩⟩
      · cases h
    · cases h

private theorem passes_cmpOp {op : CmpOp} {h₀ : r.length < ts.length}
    (h : cmpOp? ts = some ⟨op, r, h₀⟩) : Passes Anywhere ts r := by
  have hplain : ∀ text ∈ comparisonWords, text ∉ ["(", "[", ")", "]", ":"] := by decide
  obtain ⟨pre, rfl, hpre⟩ := words_of_cmpOp? h
  refine .plains (fun t ht => ?_) r
  obtain ⟨text, hm, hi⟩ := hpre t ht
  exact .of_is hi (hplain text hm)

private theorem gives_comparators (hs : AreSound kept ts)
    (hb : ∀ r, r.length < ts.length → AreSound kept r →
      Gives Anywhere (IsGiven kept false) (binary .bitOr r) r)
    (hc : ∀ r, r.length < ts.length → AreSound kept r →
      Gives Anywhere (AreComparators kept) (comparators r) r) :
    Gives Anywhere (AreComparators kept) (comparators ts) ts := by
  intro v r h hv
  rw [comparators] at hv
  split at hv
  · cases hv
    exact ⟨.refl _, rfl, nofun⟩
  · rename_i op r₁ h₁ hop
    have hp := passes_cmpOp hop
    obtain ⟨⟨e, r₂, h₂⟩, he, hv⟩ := ok_of_bind hv
    obtain ⟨hp', hge⟩ := hb r₁ h₁ (hp.areSound hs) _ _ _ he
    have hp := hp.trans hp'
    obtain ⟨⟨⟨ops, es⟩, r₃, h₃⟩, hcs, hv⟩ := ok_of_bind hv
    obtain ⟨hp', hlen, hges⟩ := hc r₂ (by omega) (hp.areSound hs) _ _ _ hcs
    cases hv
    exact ⟨hp.trans hp', congrArg (· + 1) hlen, List.forall_mem_cons.2 ⟨hge, hges⟩⟩

/-! ### Operators -/

private theorem gives_binary {l : Level} (hs : AreSound kept ts)
    (ht : Gives Anywhere (IsGiven kept false) (tighter l ts) ts)
    (hr : ∀ left r, r.length < ts.length → AreSound kept r → IsGiven kept false left →
      Gives Anywhere (IsGiven kept false) (binaryRest l left r) r) :
    Gives Anywhere (IsGiven kept false) (binary l ts) ts := by
  intro v r h hv
  rw [binary] at hv
  obtain ⟨⟨left, r₁, h₁⟩, hleft, hv⟩ := ok_of_bind hv
  obtain ⟨hp, hgl⟩ := ht _ _ _ hleft
  obtain ⟨⟨e, r₂, h₂⟩, he, hv⟩ := ok_of_bind hv
  obtain ⟨hp', hge⟩ := hr left r₁ h₁ (hp.areSound hs) hgl _ _ _ he
  cases hv
  exact ⟨hp.trans hp', hge⟩

private theorem gives_binaryRest {l : Level} {left : Expr} (hs : AreSound kept ts)
    (hl : IsGiven kept false left)
    (ht : ∀ r, r.length < ts.length → AreSound kept r →
      Gives Anywhere (IsGiven kept false) (tighter l r) r)
    (hr : ∀ left r, r.length < ts.length → AreSound kept r → IsGiven kept false left →
      Gives Anywhere (IsGiven kept false) (binaryRest l left r) r) :
    Gives Anywhere (IsGiven kept false) (binaryRest l left ts) ts := by
  intro v r' h hv
  cases ts with
  | nil =>
    rw [binaryRest] at hv
    cases hv
    exact ⟨.refl _, hl⟩
  | cons t r =>
    rw [binaryRest] at hv
    split at hv
    · cases hv
      exact ⟨.refl _, hl⟩
    · rename_i op hop
      obtain ⟨hk, hm, htext⟩ := mem_of_op? hop
      have hne : op.spelling ∉ ["(", "[", ")", "]", ":"] := by cases op <;> decide
      have hp : Passes Anywhere (t :: r) r := .plain (.of_is (is_of_op hk htext.symm) hne) r
      obtain ⟨⟨right, r₁, h₁⟩, hright, hv⟩ := ok_of_bind hv
      obtain ⟨hp', hgr⟩ := ht r (length_lt_cons t r) (hp.areSound hs) _ _ _ hright
      have hp := hp.trans hp'
      obtain ⟨⟨e, r₂, h₂⟩, he, hv⟩ := ok_of_bind hv
      obtain ⟨hp', hge⟩ := hr _ r₁ (lt_length_cons t h₁) (hp.areSound hs)
        (isGiven_binary _ _ hl hgr) _ _ _ he
      cases hv
      exact ⟨hp.trans hp', hge⟩

private theorem passes_sign {op : UnaryOp} {t : Token} (h : sign? t = some op) (r : List Token) :
    Passes Anywhere (t :: r) r := by
  unfold sign? at h
  split at h
  · rename_i hk
    have hm := List.mem_of_find?_eq_some h
    have htext : op.spelling = t.text := by simpa using List.find?_some h
    refine .plain (.of_is (is_of_op hk htext.symm) ?_) r
    revert hm
    cases op <;> decide
  · exact absurd h nofun

private theorem gives_factor (hs : AreSound kept ts)
    (hf : ∀ r, r.length < ts.length → AreSound kept r →
      Gives Anywhere (IsGiven kept false) (factor r) r)
    (hp : Gives Anywhere (IsGiven kept false) (power ts) ts) :
    Gives Anywhere (IsGiven kept false) (factor ts) ts := by
  intro v r' h hv
  cases ts with
  | nil => rw [factor] at hv; cases hv
  | cons t r =>
    rw [factor] at hv
    split at hv
    · rename_i op hop
      have hpass := passes_sign hop r
      obtain ⟨⟨e, r₁, h₁⟩, he, hv⟩ := ok_of_bind hv
      obtain ⟨hp', hge⟩ := hf r (length_lt_cons t r) (hpass.areSound hs) _ _ _ he
      cases hv
      exact ⟨hpass.trans hp', isGiven_unary _ _ hge⟩
    · exact hp _ _ _ hv

private theorem gives_power (hs : AreSound kept ts)
    (hp : Gives Anywhere (IsGiven kept false) (primary ts) ts)
    (hf : ∀ r, r.length < ts.length → AreSound kept r →
      Gives Anywhere (IsGiven kept false) (factor r) r) :
    Gives Anywhere (IsGiven kept false) (power ts) ts := by
  intro v r h hv
  rw [power] at hv
  obtain ⟨⟨base, r₁, h₁⟩, hbase, hv⟩ := ok_of_bind hv
  obtain ⟨hp, hgb⟩ := hp _ _ _ hbase
  dsimp only at hv
  split at hv
  · cases hv
    exact ⟨hp, hgb⟩
  · rename_i r₂ h₂ heat
    obtain ⟨t, rfl, ht⟩ := eq_cons_of_eat? heat
    have hp := hp.trans (.plain (.of_is ht (by decide)) r₂)
    obtain ⟨⟨exponent, r₃, h₃⟩, he, hv⟩ := ok_of_bind hv
    obtain ⟨hp', hge⟩ := hf r₂ (by omega) (hp.areSound hs) _ _ _ he
    cases hv
    exact ⟨hp.trans hp', isGiven_binary _ _ hgb hge⟩

/-! ### Values with trailers -/

/-- What is known of a value before the trailers that may follow it: the name that stands for
comments is called with the text of a comment line. -/
structure IsBase (kept : Bool) (e : Expr) (r : List Token) : Prop where
  nodes : e.walk.all (Expr.isSound kept) = true
  solid : e.isSlice = false
  gathered : e.isSpread = false
  named : kept = true → e.name? = some commentName → OpensComment r

private theorem IsGiven.isBase {e : Expr} (h : IsGiven kept false e) (r : List Token) :
    IsBase kept e r :=
  ⟨h.nodes, h.solid rfl, h.gathered, fun hk he => absurd he (h.named hk)⟩

private theorem gives_primary (hs : AreSound kept ts)
    (ha : ∀ v r h, atom ts = .ok ⟨v, r, h⟩ → Passes Anywhere ts r ∧ IsBase kept v r)
    (ht : ∀ e r, r.length < ts.length → AreSound kept r → IsBase kept e r →
      Gives Anywhere (IsGiven kept false) (trailers e r) r) :
    Gives Anywhere (IsGiven kept false) (primary ts) ts := by
  intro v r h hv
  rw [primary] at hv
  obtain ⟨⟨e, r₁, h₁⟩, he, hv⟩ := ok_of_bind hv
  obtain ⟨hp, hbe⟩ := ha _ _ _ he
  obtain ⟨⟨e', r₂, h₂⟩, he', hv⟩ := ok_of_bind hv
  obtain ⟨hp', hge⟩ := ht e r₁ h₁ (hp.areSound hs) hbe _ _ _ he'
  cases hv
  exact ⟨hp.trans hp', hge⟩

/-- Whether tokens pass up to and with the closing bracket behind a list of values. -/
def Closes (close : String) (ts r : List Token) : Prop :=
  ∃ t, t.is close = true ∧ Passes Anywhere ts (t :: r)

private theorem gives_arguments {close : String} (hs : AreSound kept ts)
    (ht : Gives Anywhere (IsGiven kept false) (test ts) ts)
    (ha : ∀ r v r' h, r.length < ts.length → AreSound kept r →
      arguments close r = .ok ⟨v, r', h⟩ → Closes close r r' ∧ AreGiven kept false v) :
    ∀ v r h, arguments close ts = .ok ⟨v, r, h⟩ → Closes close ts r ∧ AreGiven kept false v := by
  intro v r h hv
  rw [arguments] at hv
  split at hv
  · rename_i r₁ h₁ heat
    obtain ⟨t, rfl, hc⟩ := eq_cons_of_eat? heat
    cases hv
    exact ⟨⟨t, hc, .refl _⟩, nofun⟩
  · obtain ⟨⟨e, r₁, h₁⟩, he, hv⟩ := ok_of_bind hv
    obtain ⟨hp, hge⟩ := ht _ _ _ he
    dsimp only at hv
    split at hv
    · rename_i r₂ h₂ heat
      obtain ⟨t, rfl, hcomma⟩ := eq_cons_of_eat? heat
      have hp := hp.trans (.plain (.of_is hcomma (by decide)) r₂)
      obtain ⟨⟨es, r₃, h₃⟩, hes, hv⟩ := ok_of_bind hv
      obtain ⟨⟨t', hc, hp'⟩, hges⟩ := ha _ _ _ _ (by omega) (hp.areSound hs) hes
      cases hv
      exact ⟨⟨t', hc, hp.trans hp'⟩, List.forall_mem_cons.2 ⟨hge, hges⟩⟩
    · obtain ⟨⟨r₂, h₂⟩, hc, hv⟩ := ok_of_bind hv
      obtain ⟨t, rfl, ht⟩ := eq_cons_of_expect hc
      cases hv
      exact ⟨⟨t, ht, hp⟩, List.forall_mem_singleton.2 hge⟩

/-- The arguments of what stands for a comment are the text of a comment line. -/
theorem isCommentText_of_opensComment {t : Token} {args : List Expr} {h : r.length < ts.length}
    (ho : OpensComment (t :: ts)) (ha : arguments ")" ts = .ok ⟨args, r, h⟩) :
    ∃ p text, args = [.const p (.str text)] ∧ isCommentText text = true := by
  obtain ⟨t₁, t₂, t₃, r', he, h₁, h₂, htext, h₃⟩ := ho
  obtain ⟨rfl, rfl⟩ := List.cons.inj he
  have hstr := (Expr.readsAt_str h₂ rfl).mono (Nat.zero_le 13) (Nat.le_refl 13)
  have hstop : Stops 13 (t₃ :: r') := .cons (by rw [jointOf_of_is h₃]; decide)
  obtain ⟨a, h', hargs, hbare⟩ := reads_arguments_last (r := r') (t := t₃)
    (show eat? ")" ([t₂] ++ t₃ :: r') = none by simp [eat?, Token.is, h₂])
    (hstr.reads _ _ _ hstop fun a ha => ha ▸ reads_goOn hstop a) (is_of_is h₃ (by decide)) h₃
  obtain rfl : args = a := congrArg Read.value (Except.ok.inj (ha.symm.trans hargs))
  obtain ⟨e, rfl, he⟩ := List.map_eq_singleton_iff.1 hbare
  cases e with
  | const p v =>
    rw [Expr.unplaced_const] at he
    cases he
    exact ⟨p, _, rfl, htext⟩
  | _ => simp at he

/-- A call of a value with given arguments. -/
theorem isGiven_call {e : Expr} {args : List Expr} {h : r.length < ts.length} {t : Token}
    (hb : IsBase kept e (t :: ts)) (hargs : arguments ")" ts = .ok ⟨args, r, h⟩)
    (hga : AreGiven kept false args) : IsGiven kept false (.call e.pos e args) := by
  have hcomment (hk : kept = true) : (Stmt.expr .none (.call e.pos e args)).isKept = true := by
    rw [Stmt.isKept]
    cases hc : (Stmt.expr .none (.call e.pos e args)).comment? with
    | none => rfl
    | some text =>
      obtain ⟨p₁, p₂, p₃, hcall⟩ := Stmt.eq_call_of_comment? hc
      obtain ⟨-, rfl, rfl⟩ := Expr.call.inj hcall
      obtain ⟨p, text', hargs', htext⟩ := isCommentText_of_opensComment (hb.named hk rfl) hargs
      obtain ⟨-, hstr⟩ := Expr.const.inj (List.singleton_inj.1 hargs')
      obtain rfl := Constant.str.inj hstr
      exact htext
  refine ⟨?_, fun _ => rfl, fun _ => (by rintro ⟨⟩), rfl⟩
  have hcomment : kept = false ∨ (Stmt.expr .none (.call e.pos e args)).isKept = true := by
    cases kept with
    | false => exact .inl rfl
    | true => exact .inr (hcomment rfl)
  simp [Expr.walk, Expr.isSound, Expr.isFormed, Expr.isGathered, hb.nodes, hb.solid, hb.gathered,
    all_isSound_walkList hga, all_not_isSlice hga, all_not_isSpread hga, hcomment]

private theorem isIdentifier_of_isWord {id : String} (h : IsWord id) (hk : isKeyword id = false) :
    isIdentifier id = true := by
  obtain ⟨c, cs, he, hc, hcs⟩ := h
  exact isIdentifier_iff.2 ⟨c, cs, he, hc, hcs, hk⟩

private theorem gives_trailers {e : Expr} (hs : AreSound kept ts) (hb : IsBase kept e ts)
    (ha : ∀ r v r' h, r.length < ts.length → AreSound kept r →
      arguments ")" r = .ok ⟨v, r', h⟩ → Closes ")" r r' ∧ AreGiven kept false v)
    (hi : ∀ r, r.length < ts.length → AreSound kept r →
      Gives InSubscript (Sequence.Given kept .indices) (sequence .indices r) r)
    (ht : ∀ e r, r.length < ts.length → AreSound kept r → IsBase kept e r →
      Gives Anywhere (IsGiven kept false) (trailers e r) r) :
    Gives Anywhere (IsGiven kept false) (trailers e ts) ts := by
  intro v r h hv
  rw [trailers] at hv
  split at hv
  · rename_i r₀ h₀ heat
    obtain ⟨t, rfl, hopen⟩ := eq_cons_of_eat? heat
    obtain ⟨⟨args, r₁, h₁⟩, hargs, hv⟩ := ok_of_bind hv
    obtain ⟨⟨t', hclose, hp⟩, hga⟩ := ha r₀ _ _ _ h₀ hs.tail hargs
    have hp := Passes.parens (C := Anywhere) hopen hp hclose
    have hcall := isGiven_call hb hargs hga
    obtain ⟨⟨e', r₂, h₂⟩, he', hv⟩ := ok_of_bind hv
    obtain ⟨hp', hge⟩ := ht _ r₁ (by omega) (hp.areSound hs) (hcall.isBase r₁) _ _ _ he'
    cases hv
    exact ⟨hp.trans hp', hge⟩
  rename_i hparen
  split at hv
  · rename_i r₀ h₀ heat
    obtain ⟨t, rfl, hopen⟩ := eq_cons_of_eat? heat
    obtain ⟨⟨i, r₁, h₁⟩, hindex, hv⟩ := ok_of_bind hv
    obtain ⟨hp, hgi⟩ := hi r₀ h₀ hs.tail _ _ _ hindex
    obtain ⟨⟨r₂, h₂⟩, hclose, hv⟩ := ok_of_bind hv
    obtain ⟨t', rfl, ht'⟩ := eq_cons_of_expect hclose
    have hp := Passes.subscript (C := Anywhere) hopen hp ht'
    have hsub := isGiven_subscript e.pos hb.nodes hb.solid hb.gathered hgi
    obtain ⟨⟨e', r₃, h₃⟩, he', hv⟩ := ok_of_bind hv
    have hlt : r₂.length < (t :: r₀).length := Nat.lt_trans h₂ (Nat.lt_trans h₁ h₀)
    obtain ⟨hp', hge⟩ := ht _ r₂ hlt (hp.areSound hs) (hsub.isBase r₂) _ _ _ he'
    cases hv
    exact ⟨hp.trans hp', hge⟩
  split at hv
  · cases hv
  · rename_i t r₀ h₀ heat
    obtain ⟨t', rfl, hpoint⟩ := eq_cons_of_eat? heat
    split at hv
    · rename_i hname
      have hword := hs.words t (by simp) hname.1
      have hp : Passes Anywhere (t' :: t :: r₀) r₀ :=
        (Passes.plain (.of_is hpoint (by decide)) _).trans (.plain (.of_isWord hword) r₀)
      have hid := isIdentifier_of_isWord hword (by simpa using hname.2)
      have hmember := isGiven_member e.pos hb.nodes hb.solid hb.gathered hid
      obtain ⟨⟨e', r₁, h₁⟩, he', hv⟩ := ok_of_bind hv
      have hlt : r₀.length < (t' :: t :: r₀).length := by simp only [List.length_cons]; omega
      obtain ⟨hp', hge⟩ := ht _ r₀ hlt (hp.areSound hs) (hmember.isBase r₀) _ _ _ he'
      cases hv
      exact ⟨hp.trans hp', hge⟩
    · cases hv
  · cases hv
    refine ⟨.refl _, hb.nodes, fun _ => hb.solid, fun hk hname => ?_, hb.gathered⟩
    obtain ⟨t₁, t₂, t₃, r', rfl, h₁, -⟩ := hb.named hk hname
    simp [eat?, h₁] at hparen

/-! ### Atoms -/

private theorem isBase_const (p : Pos) {v : Constant} (h : v.isWritable Binary64.isCanonical = true)
    (r : List Token) : IsBase kept (.const p v) r :=
  (isGiven_const p h).isBase r

private theorem isWritable_of_whole? {base : Nat} {ds : List Char} {v : Constant}
    (h : Literal.whole? base ds = some v) : v.isWritable Binary64.isCanonical = true := by
  obtain ⟨n, -, hn⟩ := Option.bind_eq_some_iff.1 h
  split at hn
  · rename_i hlt
    obtain rfl := Option.some.inj hn
    simpa [Constant.isWritable] using hlt
  · cases hn

private theorem isWritable_of_scaled {mantissa : List Char} {e : Int} {v : Constant}
    (h : (do
      let n ← Literal.ofDigits? 10 mantissa
      return Constant.float (← Binary64.ofDecimal false n e)) = some v) :
    v.isWritable Binary64.isCanonical = true := by
  obtain ⟨n, -, h⟩ := Option.bind_eq_some_iff.1 h
  obtain ⟨x, hx, h⟩ := Option.bind_eq_some_iff.1 h
  obtain rfl := Option.some.inj h
  exact Binary64.isCanonical_of_ofDecimal hx

private theorem isWritable_of_float? {s : List Char} {v : Constant}
    (h : Literal.float? s = some v) :
    v.isWritable Binary64.isCanonical = true := by
  unfold Literal.float? at h
  dsimp only at h
  split at h
  · exact isWritable_of_scaled h
  iterate 3
    obtain ⟨e, -, h⟩ := Option.bind_eq_some_iff.1 h
    exact isWritable_of_scaled h
  · exact absurd h nofun

private theorem isWritable_of_number? {s : List Char} {v : Constant}
    (h : Literal.number? s = some v) :
    v.isWritable Binary64.isCanonical = true := by
  unfold Literal.number? at h
  dsimp only at h
  split at h
  iterate 3 exact isWritable_of_whole? h
  split at h
  · exact isWritable_of_float? h
  · exact isWritable_of_whole? h

private theorem passes_strings (ts : List Token) :
    Passes Anywhere ts (ts.dropWhile (·.kind == .str)) := by
  induction ts with
  | nil => exact .refl _
  | cons t ts ih =>
    rw [List.dropWhile_cons]
    split
    · rename_i hk
      have hk : t.kind = .str := by simpa using hk
      exact (Passes.plain (.of_kind (by simp [hk]) (by simp [hk])) ts).trans ih
    · exact .refl _

private theorem gives_atom_name {t : Token} (hs : AreSound kept (t :: r)) (hk : t.kind = .name) :
    ∀ v r' h, atom (t :: r) = .ok ⟨v, r', h⟩ → Passes Anywhere (t :: r) r' ∧ IsBase kept v r' := by
  intro v r' h hv
  have hword := hs.words t List.mem_cons_self hk
  have hp : Passes Anywhere (t :: r) r := .plain (.of_isWord hword) r
  rw [atom] at hv
  simp only [hk] at hv
  split at hv
  · cases hv; exact ⟨hp, isBase_const _ rfl _⟩
  split at hv
  · cases hv; exact ⟨hp, isBase_const _ rfl _⟩
  split at hv
  · cases hv; exact ⟨hp, isBase_const _ rfl _⟩
  split at hv
  · cases hv
  · rename_i hkey
    cases hv
    have hid := isIdentifier_of_isWord hword (by simpa using hkey)
    refine ⟨hp, by simp [Expr.walk, Expr.isSound, Expr.isFormed, Expr.isGathered, Stmt.isKept,
      Stmt.comment?, hid], rfl, rfl, ?_⟩
    intro hkept hname
    exact hs.comments hkept [] t r rfl hk (by simpa [Expr.name?] using hname)

private theorem gives_atom_literal {t : Token} (hk : t.kind = .number ∨ t.kind = .str) :
    ∀ v r' h, atom (t :: r) = .ok ⟨v, r', h⟩ → Passes Anywhere (t :: r) r' ∧ IsBase kept v r' := by
  intro v r' h hv
  have hp : Passes Anywhere (t :: r) r := by
    rcases hk with hk | hk <;> exact .plain (.of_kind (by simp [hk]) (by simp [hk])) r
  rw [atom] at hv
  rcases hk with hk | hk
  · simp only [hk] at hv
    split at hv
    · rename_i value hvalue
      cases hv
      exact ⟨hp, isBase_const _ (isWritable_of_number? hvalue) _⟩
    · cases hv
  · simp only [hk] at hv
    cases hv
    exact ⟨hp.trans (passes_strings r), isBase_const _ rfl _⟩

private theorem gives_atom_brackets {t : Token} (hs : AreSound kept (t :: r)) (hk : t.kind = .op)
    (hq : AreSound kept r → Gives Anywhere (IsGiven kept false) (sequence .values r) r)
    (ha : AreSound kept r → ∀ v r' h, arguments "]" r = .ok ⟨v, r', h⟩ →
      Closes "]" r r' ∧ AreGiven kept false v) :
    ∀ v r' h, atom (t :: r) = .ok ⟨v, r', h⟩ → Passes Anywhere (t :: r) r' ∧ IsBase kept v r' := by
  intro v r' h hv
  rw [atom] at hv
  simp only [hk] at hv
  split at hv
  · rename_i hopen
    have hopen' : t.is "(" = true := is_of_op hk hopen
    split at hv
    · rename_i r₁ h₁ heat
      obtain ⟨t', rfl, hclose⟩ := eq_cons_of_eat? heat
      cases hv
      have hes : AreGiven kept false [] := fun _ h => absurd h List.not_mem_nil
      exact ⟨.parens hopen' (.refl _) hclose, (isGiven_tuple _ hes).isBase _⟩
    · obtain ⟨⟨e, r₁, h₁⟩, he, hv⟩ := ok_of_bind hv
      obtain ⟨hp, hge⟩ := hq hs.tail _ _ _ he
      obtain ⟨⟨r₂, h₂⟩, hclose, hv⟩ := ok_of_bind hv
      obtain ⟨t', rfl, ht'⟩ := eq_cons_of_expect hclose
      cases hv
      exact ⟨.parens hopen' hp ht', hge.isBase _⟩
  split at hv
  · rename_i hopen
    have hopen' : t.is "[" = true := is_of_op hk hopen
    obtain ⟨⟨es, r₁, h₁⟩, hes, hv⟩ := ok_of_bind hv
    obtain ⟨⟨t', hclose, hp⟩, hges⟩ := ha hs.tail _ _ _ hes
    cases hv
    exact ⟨.subscript hopen' hp.mono hclose, (isGiven_list _ hges).isBase _⟩
  · cases hv

private theorem gives_atom (hs : AreSound kept ts)
    (hq : ∀ r, r.length < ts.length → AreSound kept r →
      Gives Anywhere (IsGiven kept false) (sequence .values r) r)
    (ha : ∀ r v r' h, r.length < ts.length → AreSound kept r →
      arguments "]" r = .ok ⟨v, r', h⟩ → Closes "]" r r' ∧ AreGiven kept false v) :
    ∀ v r h, atom ts = .ok ⟨v, r, h⟩ → Passes Anywhere ts r ∧ IsBase kept v r := by
  cases ts with
  | nil =>
    intro v r h hv
    rw [atom] at hv
    cases hv
  | cons t ts =>
    have hlt := length_lt_cons t ts
    cases hk : t.kind with
    | name => exact gives_atom_name hs hk
    | number => exact gives_atom_literal (.inl hk)
    | str => exact gives_atom_literal (.inr hk)
    | op =>
      exact gives_atom_brackets hs hk (fun hr => hq ts hlt hr) fun hr v r' h => ha ts v r' h hlt hr
    | _ =>
      intro v r h hv
      rw [atom] at hv
      simp only [hk] at hv
      cases hv

end Readers

/-- What reading tokens gives, at every level of the grammar. -/
structure ReadingGives (kept : Bool) (ts : List Token) : Prop where
  sequence (k : Sequence) : Gives k.Place (k.Given kept) (sequence k ts) ts
  items (k : Sequence) : Gives k.Place (AreGiven kept k.slices) (items k ts) ts
  item (k : Sequence) : Gives k.Place (IsGiven kept k.slices) (item k ts) ts
  bounds : Gives InSubscript (AreGivenBounds kept) (bounds ts) ts
  bound : Gives Anywhere (IsGivenBound kept) (bound ts) ts
  test : Gives Anywhere (IsGiven kept false) (test ts) ts
  joined (op : BoolOp) : Gives Anywhere (IsGiven kept false) (joined op ts) ts
  operands (op : BoolOp) : Gives Anywhere (AreOperands kept op ts) (operands op ts) ts
  operand (op : BoolOp) : Gives Anywhere (IsGiven kept false) (operand op ts) ts
  negation : Gives Anywhere (IsGiven kept false) (negation ts) ts
  comparators : Gives Anywhere (AreComparators kept) (comparators ts) ts
  binary (l : Level) : Gives Anywhere (IsGiven kept false) (binary l ts) ts
  tighter (l : Level) : Gives Anywhere (IsGiven kept false) (tighter l ts) ts
  binaryRest (l : Level) (left : Expr) (h : IsGiven kept false left) :
    Gives Anywhere (IsGiven kept false) (binaryRest l left ts) ts
  factor : Gives Anywhere (IsGiven kept false) (factor ts) ts
  trailers (e : Expr) (h : IsBase kept e ts) :
    Gives Anywhere (IsGiven kept false) (trailers e ts) ts
  arguments (close : String) : ∀ v r h, arguments close ts = .ok ⟨v, r, h⟩ →
    Closes close ts r ∧ AreGiven kept false v

/-- Reading goes on with fewer tokens, or on the same ones with a tighter reader. -/
theorem readingGives (ts : List Token) (hs : AreSound kept ts) : ReadingGives kept ts := by
  induction hn : ts.length using Nat.strongRecOn generalizing ts with
  | _ n ih =>
    have ih {r : List Token} (hr : r.length < ts.length) (hs : AreSound kept r) :
        ReadingGives kept r :=
      ih r.length (hn ▸ hr) r hs rfl
    have atom := gives_atom hs (fun r hr hs => (ih hr hs).sequence .values)
      fun r v r' h hr hs => (ih hr hs).arguments "]" v r' h
    have trailers (e : Expr) (hb : IsBase kept e ts) := gives_trailers hs hb
      (fun r v r' h hr hs => (ih hr hs).arguments ")" v r' h)
      (fun r hr hs => (ih hr hs).sequence .indices)
      fun e r hr hs hb => (ih hr hs).trailers e hb
    have primary := gives_primary hs atom fun e r hr hs hb => (ih hr hs).trailers e hb
    have factor := gives_factor hs (fun r hr hs => (ih hr hs).factor)
      (gives_power hs primary fun r hr hs => (ih hr hs).factor)
    have level {l : Level} (ht : Gives Anywhere (IsGiven kept false) (Parser.tighter l ts) ts) :
        Gives Anywhere (IsGiven kept false) (Parser.binary l ts) ts :=
      gives_binary hs ht fun left r hr hs hl => (ih hr hs).binaryRest l left hl
    have tightest : Gives Anywhere (IsGiven kept false) (Parser.tighter .product ts) ts := by
      rw [Parser.tighter]
      exact factor
    have tighter (l : Level) : Gives Anywhere (IsGiven kept false) (Parser.tighter l ts) ts := by
      have next (l l' : Level) (he : Parser.tighter l' ts = Parser.binary l ts)
          (h : Gives Anywhere (IsGiven kept false) (Parser.tighter l ts) ts) :
          Gives Anywhere (IsGiven kept false) (Parser.tighter l' ts) ts := he ▸ level h
      have sum := next .product .sum (by rw [Parser.tighter]) tightest
      have shift := next .sum .shift (by rw [Parser.tighter]) sum
      have bitAnd := next .shift .bitAnd (by rw [Parser.tighter]) shift
      have bitXor := next .bitAnd .bitXor (by rw [Parser.tighter]) bitAnd
      have bitOr := next .bitXor .bitOr (by rw [Parser.tighter]) bitXor
      cases l <;> assumption
    have binary (l : Level) := level (tighter l)
    have comparison := gives_comparison hs (binary .bitOr) fun r hr hs => (ih hr hs).comparators
    have negation := gives_negation hs (fun r hr hs => (ih hr hs).negation) comparison
    have and : Gives Anywhere (IsGiven kept false) (Parser.joined .and ts) ts :=
      gives_joined hs (gives_operand (by rintro ⟨⟩) fun _ => negation) fun r hr hs =>
        (ih hr hs).operands .and
    have operand (op : BoolOp) : Gives Anywhere (IsGiven kept false) (Parser.operand op ts) ts :=
      gives_operand (fun _ => and) fun _ => negation
    have joined (op : BoolOp) := gives_joined hs (operand op)
      fun r hr hs => (ih hr hs).operands op
    have test := gives_test hs (joined .or) (fun r hr hs => (ih hr hs).joined .or)
      fun r hr hs => (ih hr hs).test
    have item (k : Sequence) : Gives k.Place (IsGiven kept k.slices) (Parser.item k ts) ts :=
      gives_item (fun _ => test) (fun _ => binary .bitOr)
      fun _ => gives_index hs test fun r hr hs => (ih hr hs).bounds
    exact {
      sequence := fun k => gives_sequence hs (item k) fun r hr hs => (ih hr hs).items k
      items := fun k => gives_items hs (fun r hr hs => (ih hr hs).item k)
        fun r hr hs => (ih hr hs).items k
      item := item
      bounds := gives_bounds hs (gives_bound test) fun r hr hs => (ih hr hs).bound
      bound := gives_bound test
      test := test
      joined := joined
      operands := fun op => gives_operands hs (fun r hr hs => (ih hr hs).operand op)
        fun r hr hs => (ih hr hs).operands op
      operand := operand
      negation := negation
      comparators := gives_comparators hs (fun r hr hs => (ih hr hs).binary .bitOr)
        fun r hr hs => (ih hr hs).comparators
      binary := binary
      tighter := tighter
      binaryRest := fun l left hl => gives_binaryRest hs hl (fun r hr hs => (ih hr hs).tighter l)
        fun left r hr hs hl => (ih hr hs).binaryRest l left hl
      factor := factor
      trailers := trailers
      arguments := fun close => gives_arguments hs test
        fun r v r' h hr hs => (ih hr hs).arguments close v r' h }

end Parser
end ValidUsage
