import ValidUsage.Proofs.ReadStmt
import ValidUsage.Proofs.ScanSound

/-!
# The brackets of a layout

The tokens of the layout of a tree close their brackets. They have a colon directly between
parentheses exactly if a tuple of the tree has slices; reading passes no such colon, so what is read
has no such tuple.
-/

namespace ValidUsage

open ValidUsage.Parser

/-- Tokens without position, as tokens. -/
def placeless (ps : List (TokenKind × String)) : List Token := ps.map fun p => ⟨p.1, p.2, .none⟩

/-- Whether tokens, at places of a kind, close their brackets if `closed`, and have a colon directly
between parentheses if not. None is the end of the text. -/
structure Brackets (C : List Bool → Prop) (closed : Bool) (ps : List (TokenKind × String)) :
    Prop where
  /-- No token ends the text. -/
  goes : ∀ p ∈ ps, p.1 ≠ .endMarker
  /-- The open brackets after the tokens. -/
  after (stack : List Bool) :
    C stack → bracketsAfter? stack (placeless ps) = if closed then some stack else none

/-- Where a token is does not matter to brackets. -/
theorem bracketsAfter?_placeless (stack : List Bool) (ts : List Token) :
    bracketsAfter? stack (placeless (ts.map Token.bare)) = bracketsAfter? stack ts := by
  induction ts generalizing stack with
  | nil => rfl
  | cons t ts ih =>
    show (brackets? stack t).bind _ = (brackets? stack t).bind _
    exact congrArg (Option.bind _) (funext ih)

/-- A place directly between parentheses. -/
def InParens (stack : List Bool) : Prop := stack.head? = some true

namespace Brackets

variable {C C' : List Bool → Prop} {p q : Bool} {ps ps' : List (TokenKind × String)}

/-- What holds at places of a kind holds at those of a narrower one. -/
theorem mono (h : Brackets C p ps) (hC : ∀ stack, C' stack → C stack) : Brackets C' p ps :=
  ⟨h.goes, fun stack hs => h.after stack (hC stack hs)⟩

private theorem anywhere (h : Brackets Anywhere p ps) : Brackets C p ps := h.mono fun _ _ => trivial

/-- No tokens close their brackets. -/
theorem nil : Brackets C true [] := ⟨nofun, fun _ _ => rfl⟩

/-- Tokens one after the other close their brackets when each of them do. -/
theorem append (h : Brackets C p ps) (h' : Brackets C q ps') : Brackets C (p && q) (ps ++ ps') := by
  refine ⟨fun x hx => (List.mem_append.1 hx).elim (h.goes x) (h'.goes x), fun stack hs => ?_⟩
  rw [placeless, List.map_append, bracketsAfter?_append]
  show (bracketsAfter? stack (placeless ps)).bind (bracketsAfter? · (placeless ps')) = _
  rw [h.after stack hs]
  cases p with
  | false => rfl
  | true => exact h'.after stack hs

/-- A token that is no bracket and no colon changes nothing. -/
theorem plain {x : TokenKind × String} (hx : IsPlain ⟨x.1, x.2, .none⟩) (hk : x.1 ≠ .endMarker) :
    Brackets C true [x] := by
  refine ⟨by simpa using hk, fun stack _ => ?_⟩
  have h (text : String) (hm : text ∈ ["(", "[", ")", "]", ":"]) := hx text hm
  simp [placeless, brackets?, h "(" (by decide), h "[" (by decide), h ")" (by decide),
    h "]" (by decide), h ":" (by decide)]

/-- A word has no brackets. -/
theorem word {w : String} (h : IsWord w) : Brackets C true [(.name, w)] :=
  plain (.of_isWord h) nofun

/-- A token without brackets changes nothing in front of others. -/
theorem cons {x : TokenKind × String} (hx : Brackets C true [x]) (h : Brackets C p ps) :
    Brackets C p (x :: ps) := by
  simpa using hx.append h

/-- A token whose text is no bracket and no colon changes nothing. -/
theorem other {x : TokenKind × String} (hx : x.2 ∉ ["(", "[", ")", "]", ":"])
    (hk : x.1 ≠ .endMarker) : Brackets C true [x] :=
  plain (fun _ hm => is_eq_false fun he => hx (by rwa [show x.2 = _ from he])) hk

/-- Tokens between two that open and close a bracket. -/
theorem enclosed {x y : TokenKind × String} (inner : Bool) (hx : x.1 ≠ .endMarker)
    (hy : y.1 ≠ .endMarker)
    (ho : ∀ stack, brackets? stack ⟨x.1, x.2, .none⟩ = some (inner :: stack))
    (hc : ∀ stack, brackets? (inner :: stack) ⟨y.1, y.2, .none⟩ = some stack)
    (hC : ∀ stack, C' (inner :: stack)) (h : Brackets C' p ps) :
    Brackets C p (x :: (ps ++ [y])) := by
  refine ⟨fun z hz => ?_, fun stack _ => ?_⟩
  · simp only [List.mem_cons, List.mem_append, List.not_mem_nil, or_false] at hz
    rcases hz with rfl | hz | rfl
    · exact hx
    · exact h.goes z hz
    · exact hy
  · have he : placeless (x :: (ps ++ [y])) =
        ⟨x.1, x.2, .none⟩ :: (placeless ps ++ [⟨y.1, y.2, .none⟩]) := by simp [placeless]
    rw [he, bracketsAfter?_cons, ho, Option.bind_some, bracketsAfter?_append,
      h.after _ (hC stack)]
    cases p with
    | false => rfl
    | true => simp [hc]

/-- Tokens between parentheses close them, if there is no colon directly between. -/
theorem parens (h : Brackets InParens p ps) : Brackets C p ((.op, "(") :: (ps ++ [(.op, ")")])) :=
  h.enclosed true nofun nofun (fun _ => rfl) (fun _ => rfl) fun _ => rfl

/-- Tokens of a subscript close its brackets, and a colon may stand between them. -/
theorem subscript (h : Brackets InSubscript p ps) :
    Brackets C p ((.op, "[") :: (ps ++ [(.op, "]")])) :=
  h.enclosed false nofun nofun (fun _ => rfl) (fun _ => rfl) fun _ => rfl

private theorem colon_subscript : Brackets InSubscript true [(.op, ":")] := by
  refine ⟨by simp, fun stack hs => ?_⟩
  have hs : stack.head? = some false := hs
  simp [placeless, brackets?, Token.is, hs]

/-- Outside of brackets a colon does not count. -/
theorem colon_top : Brackets AtTop true [(.op, ":")] := by
  refine ⟨by simp, fun stack hs => ?_⟩
  obtain rfl : stack = [] := hs
  rfl

/-- Nothing passes a colon directly between parentheses. -/
theorem colon_parens (h : Brackets InParens p ps)
    (hps : ∀ x ∈ ps', x.1 ≠ .endMarker) :
    Brackets InParens false (ps ++ (.op, ":") :: ps') := by
  refine ⟨?_, fun stack hs => ?_⟩
  · intro x hx
    rcases List.mem_append.1 hx with hx | hx
    · exact h.goes x hx
    · rcases List.mem_cons.1 hx with rfl | hx
      · exact nofun
      · exact hps x hx
  · have hs' : stack.head? = some true := hs
    rw [placeless, List.map_append, bracketsAfter?_append]
    show (bracketsAfter? stack (placeless ps)).bind _ = _
    rw [h.after stack hs]
    cases p with
    | false => rfl
    | true => simp [brackets?, Token.is, hs']

end Brackets

namespace Expr

/-- Whether no tuple in an expression has slices. -/
def isPacked (e : Expr) : Bool := e.walk.all (!·.isSpread)

private theorem walkList_all_not_isSpread (es : List Expr) :
    (walkList es).all (!·.isSpread) = es.all isPacked := by
  rw [Bool.eq_iff_iff, all_walkList, List.all_eq_true]
  rfl

private theorem walkOption_all_not_isSpread (o : Option Expr) :
    (walkOption o).all (!·.isSpread) = o.all isPacked := by
  cases o <;> rfl

section isPacked

variable (p : Pos)

@[simp] theorem isPacked_boolOp (op : BoolOp) (values : List Expr) :
    (boolOp p op values).isPacked = values.all isPacked :=
  walkList_all_not_isSpread values

@[simp] theorem isPacked_binary (left right : Expr) (op : BinOp) :
    (binary p left op right).isPacked = (left.isPacked && right.isPacked) :=
  List.all_append

@[simp] theorem isPacked_unary (op : UnaryOp) (operand : Expr) :
    (unary p op operand).isPacked = operand.isPacked := rfl

@[simp] theorem isPacked_compare (left : Expr) (ops : List CmpOp) (comparators : List Expr) :
    (compare p left ops comparators).isPacked = (left.isPacked && comparators.all isPacked) := by
  rw [← walkList_all_not_isSpread]
  exact List.all_append

@[simp] theorem isPacked_call (func : Expr) (args : List Expr) :
    (call p func args).isPacked = (func.isPacked && args.all isPacked) := by
  rw [← walkList_all_not_isSpread]
  exact List.all_append

@[simp] theorem isPacked_member (value : Expr) (attr : String) :
    (member p value attr).isPacked = value.isPacked := rfl

@[simp] theorem isPacked_subscript (value index : Expr) :
    (subscript p value index).isPacked = (value.isPacked && index.isPacked) :=
  List.all_append

@[simp] theorem isPacked_ifExp (test body orelse : Expr) :
    (ifExp p test body orelse).isPacked =
      (test.isPacked && (body.isPacked && orelse.isPacked)) :=
  List.all_append.trans (congrArg (_ && ·) List.all_append)

@[simp] theorem isPacked_tuple (elts : List Expr) :
    (tuple p elts).isPacked = elts.all fun e => !e.isSlice && e.isPacked := by
  rw [isPacked, walk, List.all_cons, walkList_all_not_isSpread, isSpread, Bool.eq_iff_iff]
  simp [List.all_eq_true, forall_and]

@[simp] theorem isPacked_list (elts : List Expr) :
    (list p elts).isPacked = elts.all isPacked :=
  walkList_all_not_isSpread elts

@[simp] theorem isPacked_slice (lower upper step : Option Expr) :
    (slice p lower upper step).isPacked =
      (lower.all isPacked && (upper.all isPacked && step.all isPacked)) := by
  simp only [← walkOption_all_not_isSpread, ← List.all_append]
  rfl

end isPacked

variable {C : List Bool → Prop} {e : Expr} {n : Nat}

/-- What is proved of an expression by induction: a slice is written directly in a subscript, and
anything else anywhere. -/
structure HasBrackets (e : Expr) : Prop where
  solid (n : Nat) : e.isSlice = false → Brackets Anywhere e.isPacked (tokensOf (e.layout n))
  index (n : Nat) : Brackets InSubscript e.isPacked (tokensOf (e.layout n))
  parens (n : Nat) : Brackets InParens (!e.isSlice && e.isPacked) (tokensOf (e.layout n))

private theorem HasBrackets.of_solid (hs : e.isSlice = false)
    (h : ∀ n, Brackets Anywhere e.isPacked (tokensOf (e.layout n))) : e.HasBrackets where
  solid n _ := h n
  index n := (h n).anywhere
  parens n := by
    rw [hs]
    exact (h n).anywhere

/-- Parentheses around an expression change nothing about its brackets. -/
theorem HasBrackets.wrapped (h : e.HasBrackets) (hs : e.isSlice = false) (w : Bool) (n : Nat) :
    Brackets Anywhere e.isPacked (tokensOf (wrapped w n e.layout)) := by
  cases w with
  | false => exact h.solid n hs
  | true =>
    show Brackets _ _ (tokensOf (.openParen :: (e.layout (n + parenIndent) ++ [.closeParen])))
    rw [tokensOf_cons, tokensOf_append]
    exact .parens (h.solid _ hs).anywhere

private theorem brackets_binOp (op : BinOp) :
    Brackets C true (Mark.operator op.spelling).tokens := by
  cases op <;> exact .other (by decide) nofun

private theorem brackets_unaryOp (op : UnaryOp) :
    Brackets C true (Mark.operator op.spelling).tokens := by
  cases op <;> exact .other (by decide) nofun

private theorem brackets_boolOp (op : BoolOp) :
    Brackets C true (Mark.operator op.spelling).tokens := by
  cases op <;> exact .other (by decide) nofun

private theorem brackets_cmpOp (op : CmpOp) :
    Brackets C true (Mark.operator op.spelling).tokens := by
  cases op with
  | isNot | notIn => exact .cons (.other (by decide) nofun) (.other (by decide) nofun)
  | _ => exact .other (by decide) nofun

private theorem brackets_const (value : Constant) : Brackets C true value.mark.tokens := by
  cases value with
  | bool b => cases b <;> exact .other (by decide) (by rintro ⟨⟩)
  | none => exact .other (by decide) (by rintro ⟨⟩)
  | int | float => exact .plain (.of_kind (by rintro ⟨⟩) (by rintro ⟨⟩)) (by rintro ⟨⟩)
  | str s =>
    rw [Constant.mark, Mark.tokens, if_pos (by simp [Literal.quote])]
    exact .plain (.of_kind (by rintro ⟨⟩) (by rintro ⟨⟩)) (by rintro ⟨⟩)

/-- Values between commas. -/
theorem brackets_arguments {f : Expr → Bool} {es : List Expr}
    (h : ∀ e ∈ es, ∀ n, Brackets C (f e) (tokensOf (e.layout n))) (n : Nat) :
    Brackets C (es.all f) (tokensOf (arguments false es n)) := by
  induction es with
  | nil => exact .nil
  | cons e es ih =>
    have he := h e List.mem_cons_self n
    cases es with
    | nil =>
      rw [arguments, tokensOf_named]
      simpa using he
    | cons e' es =>
      rw [arguments_cons, tokensOf_append, tokensOf_named, tokensOf_cons, Mark.tokens_comma,
        List.all_cons]
      exact he.append (.cons (.other (by decide) (by rintro ⟨⟩))
        (ih fun e he => h e (List.mem_cons_of_mem _ he)))

private theorem brackets_operands (op : BoolOp) {es : List Expr} (h : ∀ e ∈ es, e.HasBrackets)
    (hs : ∀ e ∈ es, e.isSlice = false) (n : Nat) :
    Brackets Anywhere (es.all isPacked) (tokensOf (operands op es n)) := by
  induction es with
  | nil => exact .nil
  | cons e es ih =>
    have he := (h e List.mem_cons_self).wrapped (hs e List.mem_cons_self) e.isChoice n
    cases es with
    | nil =>
      rw [operands]
      simpa using he
    | cons e' es =>
      rw [operands, List.all_cons]
      · simp only [tokensOf_append, tokensOf_cons, Mark.tokens_blank, List.nil_append]
        exact he.append ((brackets_boolOp op).append (.append (p := true) .nil
          (ih (fun e he => h e (List.mem_cons_of_mem _ he))
            fun e he => hs e (List.mem_cons_of_mem _ he))))
      · rintro ⟨⟩

private theorem brackets_comparisons (ops : List CmpOp) {es : List Expr}
    (h : ∀ e ∈ es, e.HasBrackets)
    (hs : ∀ e ∈ es, e.isSlice = false) (hlen : ops.length = es.length) (n : Nat) :
    Brackets Anywhere (es.all isPacked) (tokensOf (comparisons ops es n)) := by
  induction es generalizing ops with
  | nil =>
    obtain rfl := List.length_eq_zero_iff.1 hlen
    exact .nil
  | cons e es ih =>
    cases ops with
    | nil => exact absurd hlen nofun
    | cons op ops =>
      have he := (h e List.mem_cons_self).wrapped (hs e List.mem_cons_self) e.wrapsCompared n
      rw [comparisons, List.all_cons]
      simp only [tokensOf_append, tokensOf_cons, Mark.tokens_blank, List.nil_append]
      simpa using (brackets_cmpOp op).append (he.append
        (ih ops (fun e he => h e (List.mem_cons_of_mem _ he))
          (fun e he => hs e (List.mem_cons_of_mem _ he)) (Nat.succ.inj hlen)))

/-- The arguments of a call, with the parentheses that they may bring. -/
theorem brackets_called {args : List Expr} (h : ∀ e ∈ args, e.HasBrackets)
    (hs : ∀ e ∈ args, e.isSlice = false) (n : Nat) :
    Brackets Anywhere (args.all isPacked)
      (tokensOf (Expr.wrapped (!ownParens args) n (arguments false args))) := by
  have hargs := brackets_arguments (C := Anywhere) (f := isPacked) fun e he n =>
    (h e he).solid n (hs e he)
  cases ownParens args with
  | true => exact hargs n
  | false =>
    show Brackets _ _ (tokensOf (.openParen :: (arguments false args _ ++ [.closeParen])))
    rw [tokensOf_cons, tokensOf_append]
    exact .parens (hargs _).anywhere

private theorem brackets_bound {o : Option Expr} (h : ∀ e ∈ o, e.HasBrackets)
    (hs : ∀ e ∈ o, e.isSlice = false) (n : Nat) :
    Brackets Anywhere (o.all isPacked) (tokensOf (bound [] o n)) := by
  cases o with
  | none => exact .nil
  | some e => exact (h e rfl).solid n (hs e rfl)

private theorem hasBrackets_slice (p : Pos) {lower upper step : Option Expr}
    (hl : ∀ e ∈ lower, e.HasBrackets) (hu : ∀ e ∈ upper, e.HasBrackets)
    (hs : ∀ e ∈ step, e.HasBrackets) (hsl : ∀ e ∈ lower, e.isSlice = false)
    (hsu : ∀ e ∈ upper, e.isSlice = false) (hss : ∀ e ∈ step, e.isSlice = false) :
    (slice p lower upper step).HasBrackets := by
  have hstep (n : Nat) :
      Brackets InSubscript (step.all isPacked) (tokensOf (bound [.colon] step n)) := by
    cases step with
    | none => exact .nil
    | some e => exact .cons .colon_subscript ((hs e rfl).solid n (hss e rfl)).anywhere
  have hrest (n : Nat) := (brackets_bound hu hsu n).anywhere.append (hstep n)
  refine ⟨fun n h => absurd h nofun, fun n => ?_, fun n => ?_⟩
  · have h := (brackets_bound hl hsl n).anywhere.append (.cons .colon_subscript (hrest n))
    rw [layout, tokensOf_append, tokensOf_cons, tokensOf_append]
    simpa using h
  · rw [layout, tokensOf_append, tokensOf_cons, tokensOf_append]
    exact .colon_parens (brackets_bound hl hsl n).anywhere (hrest n).goes

private theorem hasBrackets_tuple (p : Pos) {elts : List Expr} (h : ∀ e ∈ elts, e.HasBrackets) :
    (tuple p elts).HasBrackets := by
  refine .of_solid rfl fun n => ?_
  have hargs := brackets_arguments (fun e he n => (h e he).parens n) n
  have hcomma : Brackets InParens true
      (tokensOf (if elts.length = 1 then [Mark.plain ","] else [])) := by
    split
    · exact .other (by decide) nofun
    · exact .nil
  rw [isPacked_tuple, layout, tokensOf_cons, tokensOf_append]
  refine .parens ?_
  rw [tokensOf_append]
  simpa using hargs.append hcomma

/-- The tokens of an expression that is spelled close their brackets, unless a tuple has slices. -/
theorem hasBrackets {fractions : Binary64 → Bool} {e : Expr} (h : e.isSpelled fractions = true) :
    e.HasBrackets := by
  rw [isSpelled] at h
  have each {es : List Expr} (ih : ∀ e ∈ es, e.walk.all (isFormed fractions) = true → e.HasBrackets)
      (h : (walkList es).all (isFormed fractions) = true) : ∀ e ∈ es, e.HasBrackets :=
    fun e he => ih e he (all_walkList.1 h e he)
  have option {o : Option Expr}
      (ih : ∀ e ∈ o, e.walk.all (isFormed fractions) = true → e.HasBrackets)
      (h : (walkOption o).all (isFormed fractions) = true) : ∀ e ∈ o, e.HasBrackets :=
    fun e he => ih e he (all_walkOption.1 h e he)
  induction e using partsInduction with
  | boolOp p op values ih =>
    simp only [walk, List.all_cons, isFormed, Bool.and_eq_true, all_not_isSlice_iff] at h
    refine .of_solid rfl fun n => ?_
    have hb := brackets_operands op (each ih h.2) h.1.2 (n + parenIndent)
    rw [isPacked_boolOp, layout, tokensOf_cons, tokensOf_append]
    exact .parens hb.anywhere
  | binary p left op right ihl ihr =>
    simp only [walk, List.all_cons, List.all_append, isFormed, Bool.and_eq_true,
      Bool.not_eq_true'] at h
    refine .of_solid rfl fun n => ?_
    have hl := (ihl h.2.1).wrapped h.1.1 (left.wrapsLeft op) n
    have hr := (ihr h.2.2).wrapped h.1.2 (right.wrapsRight op) n
    rw [layout]
    simp only [tokensOf_append, tokensOf_cons, Mark.tokens_blank, List.nil_append]
    simpa using hl.append ((brackets_binOp op).append hr)
  | unary p op operand ih =>
    simp only [walk, List.all_cons, isFormed, Bool.and_eq_true, Bool.not_eq_true'] at h
    refine .of_solid rfl fun n => ?_
    have ho := (ih h.2).wrapped h.1 operand.wrapsOperand n
    have hb : tokensOf (if op = .not then [Mark.blank] else []) = [] := by split <;> simp
    rw [layout, tokensOf_cons, tokensOf_append, hb, List.nil_append]
    simpa using (brackets_unaryOp op).append ho
  | compare p left ops comparators ihl ih =>
    simp only [walk, List.all_cons, List.all_append, isFormed, Bool.and_eq_true,
      all_not_isSlice_iff, Bool.not_eq_true', beq_iff_eq] at h
    obtain ⟨⟨⟨⟨-, hlen⟩, hsl⟩, hsc⟩, hl, hc⟩ := h
    refine .of_solid rfl fun n => ?_
    have hleft := (ihl hl).wrapped hsl left.wrapsCompared n
    have hcs := brackets_comparisons ops (each ih hc) hsc hlen n
    rw [layout, tokensOf_append]
    simpa using hleft.append hcs
  | call p func args ihf ih =>
    simp only [walk, List.all_cons, List.all_append, isFormed, Bool.and_eq_true,
      all_not_isSlice_iff, Bool.not_eq_true'] at h
    obtain ⟨⟨hsf, hsa⟩, hf, ha⟩ := h
    refine .of_solid rfl fun n => ?_
    have hfunc := (ihf hf).wrapped hsf func.wrapsReceiver n
    have hargs := brackets_called (each ih ha) hsa n
    rw [tokensOf_call p n ?_, tokensOf_append]
    · simpa using hfunc.append hargs
    · rintro q value attr rfl
      simp only [walk, List.all_cons, isFormed, Bool.and_eq_true] at hf
      exact .of_isIdentifier hf.1.2
  | member p value attr ih =>
    simp only [walk, List.all_cons, isFormed, Bool.and_eq_true, Bool.not_eq_true'] at h
    obtain ⟨⟨hs, ha⟩, hv⟩ := h
    refine .of_solid rfl fun n => ?_
    have hvalue := (ih hv).wrapped hs value.wrapsReceiver n
    have hattr := Brackets.word (C := Anywhere) (.of_isIdentifier ha)
    rw [isPacked_member, ← Bool.and_true value.isPacked, layout]
    simp only [tokensOf_append, tokensOf_cons, tokens_plain (.of_isIdentifier ha)]
    exact hvalue.append ((Brackets.other (x := (.op, ".")) (by decide) (by rintro ⟨⟩)).append hattr)
  | subscript p value index ihv ihi =>
    simp only [walk, List.all_cons, List.all_append, isFormed, Bool.and_eq_true,
      Bool.not_eq_true'] at h
    obtain ⟨hs, hv, hi⟩ := h
    refine .of_solid rfl fun n => ?_
    have hvalue := (ihv hv).wrapped hs value.wrapsReceiver n
    have hindex := ((ihi hi).index n).subscript (C := Anywhere)
    rw [isPacked_subscript, layout, tokensOf_append, tokensOf_cons, tokensOf_append]
    exact hvalue.append hindex
  | ifExp p test body orelse iht ihb iho =>
    simp only [walk, List.all_cons, List.all_append, isFormed, Bool.and_eq_true,
      Bool.not_eq_true'] at h
    obtain ⟨⟨⟨hst, hsb⟩, hso⟩, ht, hb, ho⟩ := h
    refine .of_solid rfl fun n => ?_
    have hbody := (ihb hb).wrapped hsb body.isChoice n
    have htest := (iht ht).wrapped hst test.isChoice n
    have horelse := (iho ho).wrapped hso orelse.isChoice n
    have hword (w : String) (hw : w ∉ ["(", "[", ")", "]", ":"]) :
        Brackets Anywhere true [(.name, w)] := .other hw (by rintro ⟨⟩)
    rw [layout]
    simp only [tokensOf_append, tokensOf_cons, Mark.tokens_blank, Mark.tokens_keyword,
      List.nil_append]
    have hall := hbody.append ((hword "if" (by decide)).append
      (htest.append ((hword "else" (by decide)).append horelse)))
    simpa [Bool.and_left_comm] using hall
  | name p id =>
    simp only [walk, List.all_cons, isFormed, Bool.and_eq_true] at h
    exact .of_solid rfl fun n => .word (.of_isIdentifier h.1)
  | const p value =>
    refine .of_solid rfl fun n => ?_
    rw [layout_const, tokensOf_cons, tokensOf_nil, List.append_nil]
    exact brackets_const value
  | tuple p elts ih =>
    simp only [walk, List.all_cons, Bool.and_eq_true] at h
    exact hasBrackets_tuple p (each ih h.2)
  | list p elts ih =>
    simp only [walk, List.all_cons, isFormed, Bool.and_eq_true, all_not_isSlice_iff] at h
    refine .of_solid rfl fun n => ?_
    have hargs := brackets_arguments (C := InSubscript) (f := isPacked)
      (fun e he n => ((each ih h.2 e he).solid n (h.1 e he)).anywhere) n
    rw [isPacked_list, layout, tokensOf_cons, tokensOf_append]
    exact hargs.subscript
  | slice p lower upper step ihl ihu ihs =>
    simp only [walk, List.all_cons, List.all_append, isFormed, Bool.and_eq_true,
      Option.all_eq_true, Bool.not_eq_true'] at h
    obtain ⟨⟨⟨hsl, hsu⟩, hss⟩, hl, hu, hs⟩ := h
    exact hasBrackets_slice p (option ihl hl) (option ihu hu) (option ihs hs) hsl hsu hss

end Expr

namespace Stmt

variable {fractions : Binary64 → Bool}

/-- Whether no tuple in a statement has slices. -/
def isPacked (s : Stmt) : Bool := s.walk.all (!·.isSpread)

/-- No tuple in a block has slices when none in its statements has. -/
theorem walkBlock_all_not_isSpread (b : Block) :
    (walkBlock b).all (!·.isSpread) = b.all isPacked := by
  induction b with
  | nil => rfl
  | cons s ss ih => rw [walkBlock, List.all_append, ih, List.all_cons, isPacked]

/-- What is proved of a statement by induction. -/
def HasBrackets (s : Stmt) : Prop := ∀ n, Brackets AtTop s.isPacked (s.tokens n)

private theorem brackets_layout {k : TokenKind} (hk : k.isLayout = true) (he : k ≠ .endMarker) :
    Brackets AtTop true [layoutToken k] :=
  .plain (.of_kind (by rintro rfl; exact absurd hk nofun) (by rintro rfl; exact absurd hk nofun)) he

private theorem brackets_block {b : Block} (h : ∀ s ∈ b, s.HasBrackets) (n : Nat) :
    Brackets AtTop (b.all isPacked) (blockTokens b n) := by
  induction b with
  | nil => exact .nil
  | cons s ss ih =>
    rw [blockTokens, List.all_cons]
    exact (h s List.mem_cons_self n).append (ih fun s hs => h s (List.mem_cons_of_mem _ hs))

private theorem brackets_suite {p : Bool} {ts : List (TokenKind × String)}
    (h : Brackets AtTop p ts) :
    Brackets AtTop p (suiteTokens ts) := by
  have hend := h.append (brackets_layout (k := .dedent) rfl nofun)
  rw [Bool.and_true] at hend
  exact .cons (brackets_layout rfl nofun) (.cons (brackets_layout rfl nofun) hend)

private theorem brackets_body {b : Block} (h : ∀ s ∈ b, s.HasBrackets) (n : Nat) :
    Brackets AtTop (b.all isPacked) (bodyTokens b (blockTokens b n)) := by
  cases b with
  | nil => exact brackets_layout rfl nofun
  | cons s ss => exact brackets_suite (brackets_block h n)

/-- The head of a compound statement between its word and its colon, and what is behind it. -/
theorem brackets_head {e : Expr} (h : e.HasBrackets) (hs : e.isSlice = false) (n : Nat) {w : String}
    (hw : w ∉ ["(", "[", ")", "]", ":"]) {x : TokenKind × String} (hx : Brackets AtTop true [x])
    {p : Bool} {ts : List (TokenKind × String)} (hts : Brackets AtTop p ts) :
    Brackets AtTop (e.isPacked && p) ((.name, w) :: (tokensOf (e.layout n) ++ x :: ts)) :=
  .cons (.other hw nofun) ((h.solid n hs).anywhere.append (.cons hx hts))

private theorem brackets_else {b : Block} (h : ∀ s ∈ b, s.HasBrackets)
    (hif : ∀ p test body orelse, b = [ifElse p test body orelse] → ∀ n,
      Brackets AtTop (b.all isPacked) (ifTokens "elif" test body orelse n)) (c : Bool) (n : Nat) :
    Brackets AtTop (b.all isPacked) (elseTokens c b n) := by
  by_cases hne : b = []
  · subst hne
    rw [elseTokens]
    exact .nil
  · by_cases hi : c = true ∧ ∃ p test body orelse, b = [.ifElse p test body orelse]
    · obtain ⟨rfl, p, test, body, orelse, rfl⟩ := hi
      rw [elseTokens, if_pos rfl]
      exact hif p test body orelse rfl n
    · rw [elseTokens_eq hne fun hc p test body orelse he => hi ⟨hc, p, test, body, orelse, he⟩]
      exact .cons (.other (by decide) (by rintro ⟨⟩))
        (.cons .colon_top (brackets_suite (brackets_block h _)))

/-- The tokens of a statement that is spelled close their brackets, unless a tuple has slices. -/
theorem hasBrackets {s : Stmt} (h : s.isSpelled fractions = true) : s.HasBrackets := by
  have expr {e : Expr} (h : e.isSlice = false ∧ e.isSpelled fractions = true) (n : Nat) :
      Brackets AtTop e.isPacked (tokensOf (e.layout n)) :=
    ((Expr.hasBrackets h.2).solid n h.1).anywhere
  have line {p : Bool} {ts : List (TokenKind × String)} (h : Brackets AtTop p ts) :
      Brackets AtTop p (ts ++ [layoutToken .newline]) := by
    simpa using h.append (brackets_layout (k := .newline) rfl (by rintro ⟨⟩))
  suffices hs : s.HasBrackets ∧ ∀ p test body orelse, s = .ifElse p test body orelse → ∀ w n,
      w ∉ ["(", "[", ")", "]", ":"] →
        Brackets AtTop s.isPacked (ifTokens w test body orelse n) from hs.1
  induction s using partsInduction with
  | assign p targets value =>
    obtain ⟨-, ht, hv⟩ := isSpelled_iff.1 h
    refine ⟨fun n => ?_, (by simp)⟩
    have htargets : Brackets AtTop (targets.all Expr.isPacked)
        (tokensOf (targets.flatMap fun t => t.layout n ++ [.blank, .operator "=", .blank])) := by
      clear h
      induction targets with
      | nil => exact .nil
      | cons t ts ih =>
        rw [List.flatMap_cons, tokensOf_append, tokensOf_append, List.all_cons]
        refine .append ?_ (ih fun t h => ht t (List.mem_cons_of_mem _ h))
        have h := (expr (ht t List.mem_cons_self) n).append
          (Brackets.other (x := (.op, "=")) (by decide) (by rintro ⟨⟩))
        rwa [Bool.and_true] at h
    rw [isPacked, walk, List.all_append, Expr.walkList_all_not_isSpread, tokens, layout,
      tokensOf_append]
    · exact line (htargets.append (expr hv n))
    all_goals simp
  | update p target op value =>
    obtain ⟨ht, hv⟩ := isSpelled_iff.1 h
    refine ⟨fun n => ?_, (by simp)⟩
    have hop : Brackets AtTop true (Mark.operator (op.spelling ++ "=")).tokens := by
      cases op <;> exact .other (by decide) (by rintro ⟨⟩)
    rw [isPacked, walk, List.all_append, tokens, layout]
    · simp only [tokensOf_append, tokensOf_cons, Mark.tokens_blank, List.nil_append]
      exact line ((expr ht n).append (hop.append (expr hv n)))
    all_goals simp
  | ifElse p test body orelse ihb iho =>
    obtain ⟨ht, hb, ho⟩ := isSpelled_iff.1 h
    suffices hif : ∀ w n, w ∉ ["(", "[", ")", "]", ":"] →
        Brackets AtTop (ifElse p test body orelse).isPacked (ifTokens w test body orelse n) by
      refine ⟨fun n => hif "if" n (by decide), ?_⟩
      rintro p' test' body' orelse' he
      cases he
      exact hif
    intro w n hw
    have helse := brackets_else (fun s hs => (iho s hs (ho s hs)).1)
      (fun p test body orelse' he n => by
        subst he
        simpa using (iho _ List.mem_cons_self (ho _ List.mem_cons_self)).2 p test body orelse' rfl
          "elif" n (by decide)) true n
    have hbody := brackets_body (fun s hs => (ihb s hs (hb s hs)).1) (n + blockIndent)
    rw [isPacked, walk, List.all_append, List.all_append, walkBlock_all_not_isSpread,
      walkBlock_all_not_isSpread]
    exact brackets_head (Expr.hasBrackets ht.2) ht.1 n hw .colon_top (hbody.append helse)
  | forEach p target iter body orelse ihb iho =>
    obtain ⟨ht, hi, hb, ho⟩ := isSpelled_iff.1 h
    refine ⟨fun n => ?_, (by simp)⟩
    have helse := brackets_else (c := false) (fun s hs => (iho s hs (ho s hs)).1)
      (fun p test body orelse' he n => by
        subst he
        simpa using (iho _ List.mem_cons_self (ho _ List.mem_cons_self)).2 p test body orelse' rfl
          "elif" n (by decide)) (n := n)
    have hbody := brackets_body (fun s hs => (ihb s hs (hb s hs)).1) (n + blockIndent)
    have hin : Brackets AtTop true [(TokenKind.name, "in")] := .other (by decide) (by rintro ⟨⟩)
    rw [isPacked, walk, List.all_append, List.all_append, List.all_append,
      walkBlock_all_not_isSpread, walkBlock_all_not_isSpread, tokens]
    exact brackets_head (Expr.hasBrackets ht.2) ht.1 n (by decide) hin
      ((expr hi n).append (.cons .colon_top (hbody.append helse)))
  | whileDo p test body orelse ihb iho =>
    obtain ⟨ht, hb, ho⟩ := isSpelled_iff.1 h
    refine ⟨fun n => ?_, (by simp)⟩
    have helse := brackets_else (c := false) (fun s hs => (iho s hs (ho s hs)).1)
      (fun p test body orelse' he n => by
        subst he
        simpa using (iho _ List.mem_cons_self (ho _ List.mem_cons_self)).2 p test body orelse' rfl
          "elif" n (by decide)) (n := n)
    have hbody := brackets_body (fun s hs => (ihb s hs (hb s hs)).1) (n + blockIndent)
    rw [isPacked, walk, List.all_append, List.all_append, walkBlock_all_not_isSpread,
      walkBlock_all_not_isSpread, tokens]
    exact brackets_head (Expr.hasBrackets ht.2) ht.1 n (by decide) .colon_top (hbody.append helse)
  | expr p value =>
    obtain ⟨hv, -⟩ := isSpelled_iff.1 h
    refine ⟨fun n => ?_, (by simp)⟩
    rw [isPacked, walk, tokens, layout]
    · cases hc : (Stmt.expr p value).comment? with
      | none => exact line (expr hv n)
      | some text =>
        obtain ⟨q, q', q'', rfl⟩ := eq_call_of_comment? hc
        have hstr : Brackets InParens true [(TokenKind.str,
            String.ofList ('"' :: (Paragraph.quoteComment text.toList ++ ['"'])))] :=
          .plain (.of_kind (by rintro ⟨⟩) (by rintro ⟨⟩)) (by rintro ⟨⟩)
        exact line (.cons (.other (by decide) (by rintro ⟨⟩)) hstr.parens)
    all_goals simp
  | pass p | breakOut p | nextRound p =>
    refine ⟨fun n => ?_, (by simp)⟩
    exact .cons (.other (by decide) (by rintro ⟨⟩)) (brackets_layout rfl (by rintro ⟨⟩))

end Stmt

/-- No tuple of a block has slices, if anything is read from the tokens of its layout. -/
theorem Block.all_not_isSpread_of_ofTokens {fractions : Binary64 → Bool} {b b' : Block}
    (h : b.isSpelled fractions = true) {ts : List Token} (hs : AreSound false ts)
    (hts : ts.map Token.bare = Stmt.blockTokens b 0 ++ [layoutToken .endMarker])
    (hread : ofTokens ts = .ok b') : b.walk.all (!·.isSpread) = true := by
  have hb := Stmt.brackets_block (fun s hs => Stmt.hasBrackets (Stmt.isSpelled_block.1 h s hs)) 0
  obtain ⟨-, pre, r, rfl, hpre, hr⟩ := ofTokens_gives hs hread
  obtain ⟨ts, ts₁, he, hblock, hend⟩ := List.map_eq_append_iff.1 hts
  obtain ⟨t, rfl, -⟩ := List.map_eq_singleton_iff.1 hend
  -- what was read ends no sooner than the tokens of the block
  obtain ⟨rest, rfl⟩ : ∃ rest, pre = ts ++ rest := by
    rcases List.append_eq_append_iff.1 he with ⟨rest, rfl, hrest⟩ | ⟨rest, rfl, -⟩
    · cases rest with
      | nil => exact ⟨[], by simp⟩
      | cons x rest =>
        have hx := hr x (by rw [hrest]; rfl)
        exact absurd hx (hb.goes x.bare (by rw [← hblock]; simp))
    · exact ⟨rest, rfl⟩
  have hafter := hb.after [] rfl
  rw [← hblock, bracketsAfter?_placeless] at hafter
  rw [bracketsAfter?_append, hafter] at hpre
  rw [Block.walk, Stmt.walkBlock_all_not_isSpread]
  cases hp : b.all Stmt.isPacked with
  | true => rfl
  | false => simp [hp] at hpre

end ValidUsage
