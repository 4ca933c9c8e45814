import ValidUsage.Proofs.ScanLines

/-!
# Where the lines of a layout start and end

A line of a layout starts with a name, a literal, a bracket, a sign or the word of a statement, and
ends with none of the blanks and signs that stand between others. A name that starts a line is
never followed by a colon, and so no line is taken for one of a document's own.
-/

namespace ValidUsage

namespace Mark

/-- Whether a mark ends a line. -/
def isBreak : Mark → Bool
  | lineBreak _ => true
  | _ => false

/-- Whether a mark can start a line. -/
def opens (m : Mark) : Bool := m.source.head?.any fun c => !Text.isBlank c && c != '*'

/-- Whether a mark can be the last one of a line. A comment may end with a blank. -/
def closes : Mark → Bool
  | comment _ => true
  | m => m.source.getLast?.any fun c => !Text.isBlank c && c != '-'

/-- The words that a document has for itself in front of colons. -/
def directives : List String := ["ifdef", "ifndef", "endif"]

/-- Whether a mark is spelled like a word that a document has for itself. -/
def isDirective (m : Mark) : Bool := directives.any fun w => m.source == w.toList

end Mark

/-- Whether marks start a line, and no word of a document's own followed by a colon. -/
def Opens (ms : List Mark) : Prop :=
  ∃ m ms', ms = m :: ms' ∧ m.opens = true ∧ (m.isDirective = true → ms'.head? ≠ some .colon)

/-- Whether in front of other marks each end of a line is behind a mark that can be the last one,
and in front of marks that start a line. -/
def Tidy (r : List Mark) : List Mark → Prop
  | [] => True
  | m :: ms =>
    (if m.isBreak then Opens (ms ++ r)
    else (ms ++ r).head?.any Mark.isBreak = true → m.closes = true) ∧ Tidy r ms

/-- Whether marks can stand in the middle of others. -/
structure Fits (ms : List Mark) : Prop where
  /-- Their lines start and end as they should. -/
  tidy (r : List Mark) : Tidy r ms
  /-- They do not start with the end of a line. -/
  head : ms.head?.any Mark.isBreak = false
  /-- Their last mark can be the last one of a line. -/
  last : ∃ m, ms.getLast? = some m ∧ m.closes = true

/-- Whether marks can also stand at the start of a line. -/
structure Laid (ms : List Mark) : Prop extends Fits ms where
  /-- They start a line if no colon follows. -/
  opening (r : List Mark) : r.head? ≠ some .colon → Opens (ms ++ r)

section Marks

variable {m m' : Mark} {ms ms' : List Mark} {t : String}

/-- Tidy marks stay tidy in front of tidy ones. -/
theorem Tidy.append {r : List Mark} (h : Tidy (ms' ++ r) ms) (h' : Tidy r ms') :
    Tidy r (ms ++ ms') := by
  induction ms with
  | nil => exact h'
  | cons m ms ih =>
    obtain ⟨hm, h⟩ := h
    refine ⟨?_, ih h⟩
    simpa only [List.append_eq, List.append_assoc] using hm

/-- What stands in the middle of marks is something. -/
theorem Fits.ne_nil (h : Fits ms) : ms ≠ [] := by
  obtain ⟨m, hm, -⟩ := h.last
  rintro rfl
  exact absurd hm nofun

/-- Marks that can stand in the middle of others can do so one after the other. -/
theorem Fits.append (h : Fits ms) (h' : Fits ms') : Fits (ms ++ ms') where
  tidy r := (h.tidy _).append (h'.tidy r)
  head := by
    obtain ⟨m, ms, rfl⟩ := List.exists_cons_of_ne_nil h.ne_nil
    exact h.head
  last := by
    obtain ⟨m, hm, hc⟩ := h'.last
    exact ⟨m, by rw [List.getLast?_append, hm, Option.some_or], hc⟩

/-- A mark that ends no line in front of others. -/
theorem Fits.cons (hm : m.isBreak = false) (h : Fits ms) : Fits (m :: ms) where
  tidy r := by
    refine ⟨?_, h.tidy r⟩
    obtain ⟨m', ms', rfl⟩ := List.exists_cons_of_ne_nil h.ne_nil
    rw [if_neg (by simp [hm])]
    exact fun hb => absurd (hb.symm.trans h.head) nofun
  head := hm
  last := by
    obtain ⟨m', hm', hc⟩ := h.last
    exact ⟨m', by rw [List.getLast?_cons, hm', Option.getD_some], hc⟩

private theorem Fits.singleton (hm : m.isBreak = false) (hc : m.closes = true) : Fits [m] where
  tidy r := ⟨by rw [if_neg (by simp [hm])]; exact fun _ => hc, trivial⟩
  head := hm
  last := ⟨m, rfl, hc⟩

/-- An end of a line in front of marks that start one, whatever follows them. -/
theorem Fits.lineBreak (hm : m.isBreak = false) (hc : m.closes = true) (n : Nat) (h : Fits ms)
    (ho : ∀ r, Opens (ms ++ r)) : Fits (m :: .lineBreak n :: ms) where
  tidy r := ⟨by rw [if_neg (by simp [hm])]; exact fun _ => hc, ho r, h.tidy r⟩
  head := hm
  last := by
    obtain ⟨m', hm', hc'⟩ := h.last
    exact ⟨m', by rw [List.getLast?_cons, List.getLast?_cons, hm']; rfl, hc'⟩

/-- What can start a line still can with more behind it, unless that is a colon. -/
theorem Laid.append (h : Laid ms) (h' : Fits ms') (hc : ms'.head? ≠ some .colon) :
    Laid (ms ++ ms') where
  toFits := h.toFits.append h'
  opening r _ := by
    rw [List.append_assoc]
    refine h.opening _ ?_
    obtain ⟨m, ms', rfl⟩ := List.exists_cons_of_ne_nil h'.ne_nil
    exact hc

/-- Marks that start a line do so whatever follows, if more marks follow that start with no
colon. -/
theorem Laid.opens_append (h : Laid ms) (h' : Fits ms') (hc : ms'.head? ≠ some .colon)
    (r : List Mark) : Opens (ms ++ ms' ++ r) := by
  rw [List.append_assoc]
  refine h.opening _ ?_
  obtain ⟨m, ms', rfl⟩ := List.exists_cons_of_ne_nil h'.ne_nil
  exact hc

private theorem Laid.of_fits (ho : m.opens = true) (hd : m.isDirective = false)
    (h : Fits (m :: ms)) :
    Laid (m :: ms) where
  toFits := h
  opening r _ := ⟨m, ms ++ r, rfl, ho, fun h => absurd (hd.symm.trans h) nofun⟩

private theorem Laid.singleton (hm : m.isBreak = false) (ho : m.opens = true)
    (hc : m.closes = true) :
    Laid [m] where
  toFits := .singleton hm hc
  opening r hr := ⟨m, r, rfl, ho, fun _ => hr⟩

private theorem ne_of_isNameChar {c x : Char} (hc : Text.isNameChar c = true)
    (hx : Text.isNameChar x = false) : c ≠ x := by
  rintro rfl
  exact absurd (hc.symm.trans hx) nofun

/-- A mark that is spelled as a word. -/
theorem opens_closes_of_isWord (hs : m.source = t.toList) (hm : ∀ s, m ≠ .comment s)
    (ht : IsWord t) : m.opens = true ∧ m.closes = true := by
  have hall := ht.isNameChar
  obtain ⟨c, cs, he, hc, -⟩ := ht
  rw [he] at hall
  constructor
  · have hne := ne_of_isNameChar (isNameChar_of_isNameStart hc) (show Text.isNameChar '*' = false by
      decide)
    simp [Mark.opens, hs, he, isBlank_of_isNameChar (isNameChar_of_isNameStart hc), hne]
  · have hlast : ∀ x ∈ (c :: cs).getLast?, (!Text.isBlank x && x != '-') = true := by
      intro x hx
      have hx := hall x (List.mem_of_getLast? hx)
      have hne := ne_of_isNameChar hx (show Text.isNameChar '-' = false by decide)
      simp [isBlank_of_isNameChar hx, hne]
    have hclose : m.source.getLast?.any (fun c => !Text.isBlank c && c != '-') = true := by
      rw [hs, he]
      rw [List.getLast?_cons] at hlast ⊢
      exact hlast _ rfl
    cases m with
    | comment s => exact absurd rfl (hm s)
    | _ => exact hclose

private theorem laid_word (hm : m.isBreak = false) (hs : m.source = t.toList)
    (hc : ∀ s, m ≠ .comment s)
    (ht : IsWord t) : Laid [m] :=
  .singleton hm (opens_closes_of_isWord hs hc ht).1 (opens_closes_of_isWord hs hc ht).2

end Marks

namespace Expr

private theorem fits_named {tf : Bool} {ms : List Mark} (h : Fits ms) : Fits (named tf ms) := by
  unfold named
  split
  · cases tf with
    | false => exact h
    | true =>
      obtain ⟨m, hm, hc⟩ := h.last
      obtain rfl := Option.some.inj hm
      exact .singleton rfl hc
  · exact h

/-- What is proved of an expression by induction: a slice may start with a colon. -/
structure IsLaid (e : Expr) : Prop where
  laid (n : Nat) : e.isSlice = false → Laid (e.layout n)
  fits (n : Nat) : Fits (e.layout n)

private theorem IsLaid.of_laid {e : Expr} (h : ∀ n, Laid (e.layout n)) : e.IsLaid :=
  ⟨fun n _ => h n, fun n => (h n).toFits⟩

private theorem laid_parens {ms : List Mark} (h : Fits (ms ++ [.closeParen])) :
    Laid (.openParen :: (ms ++ [.closeParen])) :=
  .of_fits (by decide) (by decide) (.cons rfl h)

private theorem laid_brackets {ms : List Mark} (h : Fits (ms ++ [.closeBracket])) :
    Laid (.openBracket :: (ms ++ [.closeBracket])) :=
  .of_fits (by decide) (by decide) (.cons rfl h)

private theorem fits_closed {ms : List Mark} (h : Fits ms) {m : Mark} (hm : m.isBreak = false)
    (hc : m.closes = true) : Fits (ms ++ [m]) :=
  h.append (.singleton hm hc)

/-- An expression that is no slice can start a line, within parentheses or without. -/
theorem IsLaid.wrapped {e : Expr} (h : e.IsLaid) (hs : e.isSlice = false) (w : Bool) (n : Nat) :
    Laid (wrapped w n e.layout) := by
  cases w with
  | false => exact h.laid n hs
  | true => exact laid_parens (fits_closed (h.fits _) rfl (by decide))

private theorem head?_blank (ms : List Mark) : (Mark.blank :: ms).head? ≠ some .colon := by
  simp [Mark.blank, Mark.colon]

/-- An operator between blanks, in front of an operand. -/
theorem fits_between {m : Mark} (hm : m.isBreak = false) {ms : List Mark} (h : Fits ms) :
    Fits (.blank :: m :: .blank :: ms) :=
  .cons rfl (.cons hm (.cons rfl h))

private theorem laid_operands (op : BoolOp) {es : List Expr} (h : ∀ e ∈ es, e.IsLaid)
    (hs : ∀ e ∈ es, e.isSlice = false) (hne : es ≠ []) (n : Nat) :
    Laid (operands op es n ++ [.closeParen]) ∧
      ∀ r, Opens (operands op es n ++ [.closeParen] ++ r) := by
  have hclose : Fits [Mark.closeParen] := .singleton rfl (by decide)
  induction es with
  | nil => exact absurd rfl hne
  | cons e es ih =>
    have he := (h e List.mem_cons_self).wrapped (hs e List.mem_cons_self) e.isChoice n
    cases es with
    | nil =>
      rw [operands]
      exact ⟨he.append hclose nofun, he.opens_append hclose nofun⟩
    | cons e' es =>
      obtain ⟨hl, ho⟩ := ih (fun e he => h e (List.mem_cons_of_mem _ he))
        (fun e he => hs e (List.mem_cons_of_mem _ he)) (by simp)
      have hop : (Mark.operator op.spelling).closes = true := by cases op <;> decide
      have hrest : Fits (.blank :: .operator op.spelling :: .lineBreak n ::
          (operands op (e' :: es) n ++ [.closeParen])) :=
        .cons rfl (.lineBreak rfl hop n hl.toFits ho)
      rw [operands]
      · simp only [List.append_assoc, List.cons_append] at hrest ho ⊢
        refine ⟨he.append hrest (head?_blank _), fun r => ?_⟩
        have hopen := he.opens_append hrest (head?_blank _) r
        simpa only [List.append_assoc, List.cons_append] using hopen
      · exact nofun

private theorem fits_comparisons (ops : List CmpOp) {es : List Expr} (h : ∀ e ∈ es, e.IsLaid)
    (hs : ∀ e ∈ es, e.isSlice = false) (hlen : ops.length = es.length) (hne : ops ≠ []) (n : Nat) :
    Fits (comparisons ops es n) ∧ (comparisons ops es n).head? = some .blank := by
  induction es generalizing ops with
  | nil => exact absurd (List.length_eq_zero_iff.1 hlen) hne
  | cons e es ih =>
    cases ops with
    | nil => exact absurd rfl hne
    | cons op ops =>
      have he := (h e List.mem_cons_self).wrapped (hs e List.mem_cons_self) e.wrapsCompared n
      rw [comparisons]
      refine ⟨fits_between rfl ?_, rfl⟩
      cases ops with
      | nil =>
        obtain rfl : es = [] := List.length_eq_zero_iff.1 (Nat.succ.inj hlen).symm
        simpa [comparisons] using he.toFits
      | cons op' ops =>
        exact he.toFits.append (ih (op' :: ops) (fun e he => h e (List.mem_cons_of_mem _ he))
          (fun e he => hs e (List.mem_cons_of_mem _ he)) (Nat.succ.inj hlen) (by simp)).1

/-- Values between commas, in front of what closes them. -/
theorem fits_arguments (tf : Bool) {es : List Expr} (h : ∀ e ∈ es, e.IsLaid) {ms : List Mark}
    (hm : Fits ms) (n : Nat) : Fits (arguments tf es n ++ ms) := by
  induction es with
  | nil => exact hm
  | cons e es ih =>
    have he : Fits (named tf (e.layout n)) := fits_named ((h e List.mem_cons_self).fits n)
    cases es with
    | nil =>
      rw [arguments]
      exact he.append hm
    | cons e' es =>
      have hrest := ih fun e he => h e (List.mem_cons_of_mem _ he)
      rw [arguments]
      · rw [List.append_assoc]
        exact he.append (.cons rfl hrest)
      · rintro ⟨⟩

/-- Arguments start with a parenthesis. -/
theorem head?_called (tf : Bool) (args : List Expr) (n : Nat) :
    (Expr.wrapped (!ownParens args) n (arguments tf args)).head? = some .openParen := by
  unfold ownParens
  split
  · simp only [Expr.wrapped, arguments, layout, named, Bool.not_true, Bool.false_eq_true, if_false]
    rfl
  · rfl

/-- The arguments of a call, with the parentheses that they may bring. -/
theorem fits_called (tf : Bool) {args : List Expr} (h : ∀ e ∈ args, e.IsLaid) (n : Nat) :
    Fits (Expr.wrapped (!ownParens args) n (arguments tf args)) := by
  unfold ownParens
  split
  · rename_i p op values
    have he := (h _ List.mem_cons_self).fits n
    rw [layout] at he
    show Fits (arguments tf [boolOp p op values] n)
    simp only [arguments, layout, named]
    exact he
  · exact .cons rfl (fits_arguments tf h (.singleton rfl (by decide)) _)

private theorem laid_call {p : Pos} {func : Expr} {args : List Expr} (hf : func.IsLaid)
    (hsf : func.isSlice = false) (hw : ∀ q id, func = name q id → IsWord id)
    (hattr : ∀ q value attr, func = member q value attr →
      IsWord attr ∧ value.IsLaid ∧ value.isSlice = false)
    (h : ∀ e ∈ args, e.IsLaid) (n : Nat) : Laid ((call p func args).layout n) := by
  have called (tf : Bool) {ms : List Mark} (hm : Laid ms) :
      Laid (ms ++ Expr.wrapped (!ownParens args) n (arguments tf args)) := by
    exact hm.append (fits_called tf h n) (by rw [head?_called]; exact (by rintro ⟨⟩))
  by_cases hn : ∃ q id, func = name q id
  · obtain ⟨q, id, rfl⟩ := hn
    rw [layout]
    split
    · exact called _ (laid_word (m := .predicate id) rfl rfl (by rintro _ ⟨⟩) (hw q id rfl))
    · exact called _ (laid_word (m := .name id) rfl rfl (by rintro _ ⟨⟩) (hw q id rfl))
  · by_cases hm : ∃ q value attr, func = member q value attr
    · obtain ⟨q, value, attr, rfl⟩ := hm
      obtain ⟨ha, hv, hs⟩ := hattr q value attr rfl
      have hvalue := hv.wrapped hs value.wrapsReceiver n
      have hpoint {m : Mark} (hm : Laid [m]) : Fits [.plain ".", m] := .cons rfl hm.toFits
      rw [layout]
      split
      · have := called false (hvalue.append (hpoint
          (laid_word (m := .predicate attr) rfl rfl (by rintro _ ⟨⟩) ha)) (by simp [Mark.colon]))
        simpa using this
      · have := called false (hvalue.append (hpoint
          (laid_word (m := .plain attr) rfl rfl (by rintro _ ⟨⟩) ha)) (by simp [Mark.colon]))
        simpa using this
    · rw [layout]
      · exact called false (hf.wrapped hsf _ n)
      · exact fun q id hq => hn ⟨q, id, hq⟩
      · exact fun q value attr hq => hm ⟨q, value, attr, hq⟩

private theorem fits_slice {p : Pos} {lower upper step : Option Expr} (hl : ∀ e ∈ lower, e.IsLaid)
    (hu : ∀ e ∈ upper, e.IsLaid) (hs : ∀ e ∈ step, e.IsLaid) (n : Nat) :
    Fits ((slice p lower upper step).layout n) := by
  have hcolon : Fits [Mark.colon] := .singleton rfl (by decide)
  -- what is behind the first colon, which may be nothing
  have hupper {ms : List Mark} (hm : Fits ms) : Fits (bound [] upper n ++ ms) := by
    cases upper with
    | none => exact hm
    | some e => exact ((hu e rfl).fits n).append hm
  have hrest : Fits (Mark.colon :: (bound [] upper n ++ bound [.colon] step n)) := by
    cases step with
    | some e => exact .cons rfl (hupper (.cons rfl ((hs e rfl).fits n)))
    | none =>
      cases upper with
      | none => exact hcolon
      | some e =>
        have he := (hu e rfl).fits n
        rw [bound, bound, List.append_nil]
        exact .cons rfl he
  rw [layout]
  cases lower with
  | none => exact hrest
  | some e => exact ((hl e rfl).fits n).append hrest

private theorem laid_number {t : String} (h : IsNumeral t) : Laid [.number t] := by
  have hdigit {c : Char} (hc : c.isDigit = true) {x : Char} (hx : x.isDigit = false) :
      Text.isBlank c = false ∧ c ≠ x :=
    ⟨isBlank_of_isNameChar (isNameChar_of_isDigit hc), isDigit_ne hc hx⟩
  obtain ⟨c, cs, he, hc⟩ := h.head
  refine .singleton rfl ?_ ?_
  · have hc := hdigit hc (x := '*') (by decide)
    show (t.toList.head?.any _) = true
    rw [he]
    simp [hc]
  · show (t.toList.getLast?.any _) = true
    have hlast := List.getLast?_cons (a := c) (l := cs)
    rw [← he] at hlast
    have hx := hdigit (h.last _ hlast) (x := '-') (by decide)
    rw [hlast, Option.any_some]
    simp [hx]

private theorem laid_const {fractions : Binary64 → Bool}
    (hf : ∀ x, fractions x = true → x.IsWritten)
    {p : Pos} {value : Constant} (h : value.isWritable fractions = true) (n : Nat) :
    Laid ((const p value).layout n) := by
  rw [layout_const]
  cases value with
  | bool b => cases b <;> exact .singleton rfl (by decide) (by decide)
  | none => exact .singleton rfl (by decide) (by decide)
  | float x => exact laid_number (hf x h).numeral
  | int k => exact laid_number (isNumeral_toString k)
  | str s =>
    refine .singleton rfl ?_ ?_
    · simp [Mark.opens, Constant.mark, Mark.source, Literal.quote]
      decide
    · show ((Literal.quote s).toList.getLast?.any _) = true
      rw [Literal.quote, String.toList_ofList, List.getLast?_concat]
      decide

private theorem laid_tuple (p : Pos) {elts : List Expr} (h : ∀ e ∈ elts, e.IsLaid) (n : Nat) :
    Laid ((tuple p elts).layout n) := by
  have hclose : Fits [Mark.closeParen] := .singleton rfl (by decide)
  have hcomma : Fits ((if elts.length = 1 then [Mark.plain ","] else []) ++ [.closeParen]) := by
    split
    · exact .cons rfl hclose
    · exact hclose
  have hargs := fits_arguments false h hcomma n
  rw [layout]
  simpa using Laid.of_fits (by decide) (by decide) (.cons (m := .openParen) rfl hargs)

/-- The lines of an expression that is spelled start and end as they should. -/
theorem isLaid_of_isSpelled {fractions : Binary64 → Bool}
    (hf : ∀ x, fractions x = true → x.IsWritten) {e : Expr} (h : e.isSpelled fractions = true) :
    e.IsLaid := by
  rw [isSpelled] at h
  have each {es : List Expr}
      (ih : ∀ e ∈ es, e.walk.all (isFormed fractions) = true → e.IsLaid)
      (h : (walkList es).all (isFormed fractions) = true) : ∀ e ∈ es, e.IsLaid :=
    fun e he => ih e he (all_walkList.1 h e he)
  have option {o : Option Expr}
      (ih : ∀ e ∈ o, e.walk.all (isFormed fractions) = true → e.IsLaid)
      (h : (walkOption o).all (isFormed fractions) = true) : ∀ e ∈ o, e.IsLaid :=
    fun e he => ih e he (all_walkOption.1 h e he)
  induction e using receiverInduction with
  | boolOp p op values ih =>
    simp only [walk, List.all_cons, isFormed, Bool.and_eq_true, all_not_isSlice_iff,
      decide_eq_true_eq] at h
    obtain ⟨⟨hlen, hs⟩, hv⟩ := h
    have hne : values ≠ [] := by
      rintro rfl
      exact absurd hlen (by decide)
    refine .of_laid fun n => ?_
    rw [layout]
    exact laid_parens (laid_operands op (each ih hv) hs hne _).1.toFits
  | binary p left op right ihl ihr =>
    simp only [walk, List.all_cons, List.all_append, isFormed, Bool.and_eq_true,
      Bool.not_eq_true'] at h
    refine .of_laid fun n => ?_
    have hl := (ihl h.2.1).wrapped h.1.1 (left.wrapsLeft op) n
    have hr := (ihr h.2.2).wrapped h.1.2 (right.wrapsRight op) n
    rw [layout]
    exact hl.append (fits_between rfl hr.toFits) (head?_blank _)
  | unary p op operand ih =>
    simp only [walk, List.all_cons, isFormed, Bool.and_eq_true, Bool.not_eq_true'] at h
    refine .of_laid fun n => ?_
    have ho := ((ih h.2).wrapped h.1 operand.wrapsOperand n).toFits
    rw [layout]
    cases op with
    | not => exact .of_fits (by decide) (by decide) (.cons rfl (.cons rfl ho))
    | invert | plus | minus => exact .of_fits (by decide) (by decide) (.cons rfl ho)
  | compare p left ops comparators ihl ih =>
    simp only [walk, List.all_cons, List.all_append, isFormed, Bool.and_eq_true,
      all_not_isSlice_iff, Bool.not_eq_true', List.isEmpty_eq_false_iff, beq_iff_eq] at h
    obtain ⟨⟨⟨⟨hne, hlen⟩, hsl⟩, hsc⟩, hl, hc⟩ := h
    refine .of_laid fun n => ?_
    have hleft := (ihl hl).wrapped hsl left.wrapsCompared n
    obtain ⟨hcs, hhead⟩ := fits_comparisons ops (each ih hc) hsc hlen hne n
    rw [layout]
    exact hleft.append hcs (by rw [hhead]; simp [Mark.blank, Mark.colon])
  | call p func args ihf ihm ih =>
    simp only [walk, List.all_cons, List.all_append, isFormed, Bool.and_eq_true,
      Bool.not_eq_true'] at h
    obtain ⟨⟨hsf, -⟩, hf, ha⟩ := h
    refine .of_laid fun n => laid_call (ihf hf) hsf ?_ ?_ (each ih ha) n
    · rintro q id rfl
      exact .of_isIdentifier (by simpa [walk, isFormed] using hf)
    · rintro q value attr rfl
      simp only [walk, List.all_cons, isFormed, Bool.and_eq_true, Bool.not_eq_true'] at hf
      obtain ⟨⟨hs, hattr⟩, hv⟩ := hf
      exact ⟨.of_isIdentifier hattr, ihm q value attr rfl hv, hs⟩
  | member p value attr ih =>
    simp only [walk, List.all_cons, isFormed, Bool.and_eq_true, Bool.not_eq_true'] at h
    obtain ⟨⟨hs, ha⟩, hv⟩ := h
    refine .of_laid fun n => ?_
    have hattr := (laid_word (m := .plain attr) rfl rfl (by rintro _ ⟨⟩)
      (.of_isIdentifier ha)).toFits
    rw [layout]
    exact ((ih hv).wrapped hs value.wrapsReceiver n).append (.cons rfl hattr) (by simp [Mark.colon])
  | subscript p value index ihv ihi =>
    simp only [walk, List.all_cons, List.all_append, isFormed, Bool.and_eq_true,
      Bool.not_eq_true'] at h
    obtain ⟨hs, hv, hi⟩ := h
    refine .of_laid fun n => ?_
    have hindex := fits_closed ((ihi hi).fits n) (m := .closeBracket) rfl (by decide)
    rw [layout]
    exact ((ihv hv).wrapped hs value.wrapsReceiver n).append (.cons rfl hindex) (by rintro ⟨⟩)
  | ifExp p test body orelse iht ihb iho =>
    simp only [walk, List.all_cons, List.all_append, isFormed, Bool.and_eq_true,
      Bool.not_eq_true'] at h
    obtain ⟨⟨⟨hst, hsb⟩, hso⟩, ht, hb, ho⟩ := h
    refine .of_laid fun n => ?_
    have hbody := (ihb hb).wrapped hsb body.isChoice n
    have htest := ((iht ht).wrapped hst test.isChoice n).toFits
    have horelse := ((iho ho).wrapped hso orelse.isChoice n).toFits
    rw [layout]
    exact hbody.append (fits_between rfl (htest.append (fits_between rfl horelse))) (head?_blank _)
  | name p id =>
    have hw : IsWord id := .of_isIdentifier (by simpa [walk, isFormed] using h)
    refine .of_laid fun n => ?_
    rw [layout]
    exact laid_word rfl rfl (by rintro _ ⟨⟩) hw
  | const p value =>
    exact .of_laid fun n => laid_const hf (by simpa [walk, isFormed] using h) n
  | tuple p elts ih =>
    simp only [walk, List.all_cons, isFormed, Bool.and_eq_true] at h
    exact .of_laid fun n => laid_tuple p (each ih h.2) n
  | list p elts ih =>
    simp only [walk, List.all_cons, isFormed, Bool.and_eq_true] at h
    refine .of_laid fun n => ?_
    rw [layout]
    exact laid_brackets (fits_arguments false (each ih h.2) (.singleton rfl (by decide)) n)
  | slice p lower upper step ihl ihu ihs =>
    simp only [walk, List.all_cons, List.all_append, Bool.and_eq_true] at h
    obtain ⟨-, hl, hu, hs⟩ := h
    refine ⟨fun n hn => (by cases hn), fun n => ?_⟩
    exact fits_slice (option ihl hl) (option ihu hu) (option ihs hs) n

end Expr
/-- Whether marks are empty or start with the end of a line. -/
def EndsMarks (r : List Mark) : Prop := ∀ m ∈ r.head?, m.isBreak = true

/-- Whether marks are whole lines. -/
structure Rests (ms : List Mark) : Prop where
  /-- Their lines start and end as they should. -/
  tidy (r : List Mark) : EndsMarks r → Tidy r ms
  /-- They start a line. -/
  opening (r : List Mark) : EndsMarks r → Opens (ms ++ r)
  /-- Their last mark can be the last one of a line. -/
  last : ∃ m, ms.getLast? = some m ∧ m.closes = true

section Lines

variable {ms ms' : List Mark}

/-- The end of all marks ends a line. -/
theorem EndsMarks.nil : EndsMarks [] := nofun

/-- So does the end of a line. -/
theorem EndsMarks.lineBreak (n : Nat) (r : List Mark) : EndsMarks (.lineBreak n :: r) := by
  intro m hm
  obtain rfl := Option.some.inj hm
  rfl

private theorem Laid.rests (h : Laid ms) : Rests ms where
  tidy r _ := h.tidy r
  opening r hr := h.opening r fun hc => absurd (hr _ hc) (by decide)
  last := h.last

/-- Whole lines stay so in front of whole lines. -/
theorem Rests.append (h : Rests ms) (n : Nat) (h' : Rests ms') :
    Rests (ms ++ .lineBreak n :: ms') where
  tidy r hr := (h.tidy _ (.lineBreak n _)).append ⟨h'.opening r hr, h'.tidy r hr⟩
  opening r _ := by
    rw [List.append_assoc]
    exact h.opening _ (.lineBreak n _)
  last := by
    obtain ⟨m, hm, hc⟩ := h'.last
    exact ⟨m, by rw [List.getLast?_append, List.getLast?_cons, hm]; rfl, hc⟩

end Lines

namespace Stmt

private theorem rests_block {n : Nat} {s : Stmt} {ss : Block}
    (h : ∀ s' ∈ s :: ss, Rests (s'.layout n)) :
    Rests (s.layout n ++ layoutBlock ss n) := by
  induction ss generalizing s with
  | nil =>
    rw [layoutBlock, List.append_nil]
    exact h s List.mem_cons_self
  | cons s' ss ih =>
    rw [layoutBlock]
    exact (h s List.mem_cons_self).append n (ih fun s he => h s (List.mem_cons_of_mem _ he))

private theorem rests_suite {ms : List Mark} (hms : Laid ms) {body : Block} {n : Nat}
    (h : ∀ s ∈ body, Rests (s.layout n)) : Rests (ms ++ layoutBlock body n) := by
  cases body with
  | nil =>
    rw [layoutBlock, List.append_nil]
    exact hms.rests
  | cons s ss => exact hms.rests.append n (rests_block h)

/-- A head with its block and an `else`, of which it is known that it is whole lines. -/
theorem rests_compound {ms : List Mark} (hms : Laid ms) {body orelse : Block} (chained : Bool)
    {n m : Nat} (h : ∀ s ∈ body, Rests (s.layout m))
    (ho : orelse ≠ [] → ∃ ms', layoutElse chained orelse n = .lineBreak n :: ms' ∧ Rests ms') :
    Rests (ms ++ (layoutBlock body m ++ layoutElse chained orelse n)) := by
  rw [← List.append_assoc]
  cases orelse with
  | nil =>
    rw [layoutElse, List.append_nil]
    exact rests_suite hms h
  | cons s ss =>
    obtain ⟨ms', he, h'⟩ := ho (List.cons_ne_nil _ _)
    rw [he]
    exact (rests_suite hms h).append n h'

private theorem rests_elseOf {chained : Bool} {orelse : Block} {n : Nat} (hne : orelse ≠ [])
    (h : ∀ s ∈ orelse, ∀ n, Rests (s.layout n))
    (helif : ∀ p test body orelse', ifElse p test body orelse' ∈ orelse →
      Rests (layoutIf "elif" test body orelse' n)) :
    ∃ ms', layoutElse chained orelse n = .lineBreak n :: ms' ∧ Rests ms' := by
  have hhead : Laid [.keyword "else", .colon] :=
    .of_fits (by decide) (by decide) (.cons rfl (.singleton rfl (by decide)))
  by_cases hc : ∃ p test body orelse', orelse = [ifElse p test body orelse']
  · obtain ⟨p, test, body, orelse', rfl⟩ := hc
    cases chained with
    | true =>
      exact ⟨layoutIf "elif" test body orelse' n, by rw [layoutElse]; rfl,
        helif p test body orelse' List.mem_cons_self⟩
    | false =>
      refine ⟨_, by rw [layoutElse]; rfl, ?_⟩
      simpa [layoutBlock] using
        rests_suite hhead (n := n + blockIndent) fun s hs => h s hs _
  · obtain ⟨s, ss, rfl⟩ := List.exists_cons_of_ne_nil hne
    have hi : ∀ p test body orelse', s = ifElse p test body orelse' → ss = [] → False := by
      rintro p test body orelse' rfl rfl
      exact hc ⟨p, test, body, orelse', rfl⟩
    refine ⟨_, by rw [layoutElse]; exact hi, ?_⟩
    simpa [layoutBlock] using rests_suite hhead (n := n + blockIndent) fun s hs => h s hs _

/-- The targets of an assignment in front of its value. -/
theorem laid_targets {targets : List Expr} (h : ∀ t ∈ targets, t.IsLaid)
    (hs : ∀ t ∈ targets, t.isSlice = false) {n : Nat} {ms : List Mark} (hms : Laid ms) :
    Laid (targets.flatMap (fun t => t.layout n ++ [.blank, .operator "=", .blank]) ++ ms) := by
  induction targets with
  | nil => exact hms
  | cons t ts ih =>
    have ht := (h t List.mem_cons_self).laid n (hs t List.mem_cons_self)
    have hrest := ih (fun t ht => h t (List.mem_cons_of_mem _ ht))
      fun t ht => hs t (List.mem_cons_of_mem _ ht)
    rw [List.flatMap_cons, List.append_assoc, List.append_assoc]
    exact ht.append (Expr.fits_between rfl hrest.toFits) (Expr.head?_blank _)

/-- The lines of a statement that is spelled start and end as they should. -/
theorem rests_of_isSpelled {fractions : Binary64 → Bool}
    (hf : ∀ x, fractions x = true → x.IsWritten) {s : Stmt} (h : s.isSpelled fractions = true)
    (n : Nat) : Rests (s.layout n) := by
  have laid {e : Expr} (h : e.isSlice = false ∧ e.isSpelled fractions = true) (n : Nat) :
      Laid (e.layout n) := (Expr.isLaid_of_isSpelled hf h.2).laid n h.1
  have hcolon : Fits [Mark.colon] := .singleton rfl (by decide)
  suffices hs : (∀ n, Rests (s.layout n)) ∧ ∀ p test body orelse,
      s = ifElse p test body orelse → ∀ n, Rests (layoutIf "elif" test body orelse n) from hs.1 n
  clear n
  have hkeyword (w : String) (hw : IsWord w) : Rests [.keyword w] :=
    (laid_word (m := .keyword w) rfl rfl (by rintro _ ⟨⟩) hw).rests
  induction s using partsInduction with
  | assign p targets value =>
    obtain ⟨-, ht, hv⟩ := isSpelled_iff.1 h
    refine ⟨fun n => ?_, (by simp)⟩
    rw [layout]
    refine (laid_targets (fun t h => ?_) (fun t h => (ht t h).1) (laid hv n)).rests
    exact Expr.isLaid_of_isSpelled hf (ht t h).2
  | update p target op value =>
    obtain ⟨ht, hv⟩ := isSpelled_iff.1 h
    refine ⟨fun n => ?_, (by simp)⟩
    rw [layout]
    exact ((laid ht n).append (Expr.fits_between rfl (laid hv n).toFits) (Expr.head?_blank _)).rests
  | ifElse p test body orelse ihb iho =>
    obtain ⟨ht, hb, ho⟩ := isSpelled_iff.1 h
    have hif (w : String)
        (hw : (Mark.keyword w).opens = true ∧ (Mark.keyword w).isDirective = false)
        (n : Nat) : Rests (layoutIf w test body orelse n) := by
      have hhead : Laid (.keyword w :: .blank :: (test.layout n ++ [.colon])) :=
        .of_fits hw.1 hw.2 (.cons rfl (.cons rfl ((laid ht n).toFits.append hcolon)))
      have hall := rests_compound (n := n) hhead true
        (fun s hs => (ihb s hs (hb s hs)).1 (n + blockIndent)) fun hne =>
          rests_elseOf hne (fun s hs => (iho s hs (ho s hs)).1) fun p' test' body' orelse' hs =>
            (iho _ hs (ho _ hs)).2 p' test' body' orelse' rfl n
      simpa [layoutIf] using hall
    refine ⟨fun n => ?_, ?_⟩
    · rw [layout]
      exact hif "if" (by decide) n
    · rintro p' test' body' orelse' he n
      cases he
      exact hif "elif" (by decide) n
  | forEach p target iter body orelse ihb iho =>
    obtain ⟨ht, hi, hb, ho⟩ := isSpelled_iff.1 h
    refine ⟨fun n => ?_, (by simp)⟩
    have hhead : Laid (.keyword "for" :: .blank :: (target.layout n ++
        .blank :: .operator "in" :: .blank :: (iter.layout n ++ [.colon]))) :=
      .of_fits (by decide) (by decide) (.cons rfl (.cons rfl ((laid ht n).toFits.append
        (Expr.fits_between rfl ((laid hi n).toFits.append hcolon)))))
    have hall := rests_compound (n := n) hhead false
      (fun s hs => (ihb s hs (hb s hs)).1 (n + blockIndent)) fun hne =>
        rests_elseOf hne (fun s hs => (iho s hs (ho s hs)).1) fun p' test' body' orelse' hs =>
          (iho _ hs (ho _ hs)).2 p' test' body' orelse' rfl n
    rw [layout]
    simpa using hall
  | whileDo p test body orelse ihb iho =>
    obtain ⟨ht, hb, ho⟩ := isSpelled_iff.1 h
    refine ⟨fun n => ?_, (by simp)⟩
    have hhead : Laid (.keyword "while" :: .blank :: (test.layout n ++ [.colon])) :=
      .of_fits (by decide) (by decide) (.cons rfl (.cons rfl ((laid ht n).toFits.append hcolon)))
    have hall := rests_compound (n := n) hhead false
      (fun s hs => (ihb s hs (hb s hs)).1 (n + blockIndent)) fun hne =>
        rests_elseOf hne (fun s hs => (iho s hs (ho s hs)).1) fun p' test' body' orelse' hs =>
          (iho _ hs (ho _ hs)).2 p' test' body' orelse' rfl n
    rw [layout]
    simpa using hall
  | expr p value =>
    obtain ⟨hv, hc⟩ := isSpelled_iff.1 h
    refine ⟨fun n => ?_, (by simp)⟩
    rw [layout]
    cases (expr p value).comment? with
    | some text =>
      have hopens : (Mark.comment text).opens = true := by
        simp [Mark.opens, Mark.source]
        decide
      exact (Laid.singleton (m := .comment text) rfl hopens rfl).rests
    | none => exact (laid hv n).rests
  | pass p =>
    exact ⟨fun _ => hkeyword "pass" (.of_toList 'p' ['a', 's', 's'] rfl (by decide)), (by simp)⟩
  | breakOut p =>
    exact ⟨fun _ => hkeyword "break" (.of_toList 'b' ['r', 'e', 'a', 'k'] rfl (by decide)),
      (by simp)⟩
  | nextRound p =>
    refine ⟨fun _ => hkeyword "continue" ?_, (by simp)⟩
    exact .of_toList 'c' ['o', 'n', 't', 'i', 'n', 'u', 'e'] rfl (by decide)

end Stmt

/-- The layout of a block that is spelled is whole lines, unless it is empty. -/
theorem Block.rests_layout {fractions : Binary64 → Bool}
    (hf : ∀ x, fractions x = true → x.IsWritten) {b : Block} (h : b.isSpelled fractions = true)
    (hne : b ≠ []) : Rests b.layout := by
  obtain ⟨s, ss, rfl⟩ := List.exists_cons_of_ne_nil hne
  exact Stmt.rests_block fun s hs => Stmt.rests_of_isSpelled hf (Stmt.isSpelled_block.1 h s hs) 0

end ValidUsage
