import ValidUsage.Proofs.Undecorate

/-!
# The markup of a layout

The layout of an expression without slices is separable in front of every mark that a word can
precede, and that of a statement in front of the end of a line: names are words, operators that are
no signs stand between blanks, and a colon ends the head of a block. So taking the markup of a whole
statement away gives its source text, unless a literal, a comment or a left shift in it can be taken
for markup.
-/

namespace ValidUsage

/-- Whether marks are separable in front of every mark that a word can precede. -/
def Closed (ms : List Mark) : Prop :=
  ∀ r, Separable r → (∀ m ∈ r.head?, m.isBoundary = true) → Separable (ms ++ r)

/-- Whether marks are separable in front of every end of a line. -/
def ClosedLine (ms : List Mark) : Prop :=
  ∀ r, Separable r → EndsMarks r → Separable (ms ++ r)

section Marks

variable {m : Mark} {ms ms' : List Mark} {t : String}

/-- A blank, a comma or a point can be told from separable marks behind it. -/
theorem Separable.plain (ht : t ∈ [" ", ", ", ".", ","]) (h : Separable ms) :
    Separable (.plain t :: ms) := by
  have hall : ∀ t ∈ [" ", ", ", ".", ","],
      t ≠ ":" ∧ t.toList.head?.any Text.isNameStart = false := by decide
  refine ⟨.inl ?_, fun m _ => ?_, h⟩
  · revert ht
    simp only [List.mem_cons, List.not_mem_nil, or_false]
    tauto
  · rw [Mark.Precedes, if_neg (hall t ht).1, (hall t ht).2]
    rintro ⟨⟩

private theorem Separable.operation (ht : t ∈ Mark.infixes) (hne : t ∉ ["<<", "<<="])
    (h : Separable ms) :
    Separable (.blank :: .operator t :: .blank :: ms) := by
  refine .plain (by decide) ⟨.inr ⟨ht, hne⟩, fun m hm => ?_, .plain (by decide) h⟩
  obtain rfl := Option.some.inj hm
  exact .inr (.inl rfl)

/-- A word is separable from a mark that it can precede. -/
theorem Separable.word (hm : m = .keyword t ∨ m = .name t ∨ m = .feature t ∨ m = .predicate t ∨
      m = .plain t) (ht : IsWord t) (hb : ∀ m' ∈ ms.head?, m'.isBoundary = true)
    (h : Separable ms) : Separable (m :: ms) := by
  rcases hm with rfl | rfl | rfl | rfl | rfl
  · exact ⟨ht, hb, h⟩
  · exact ⟨ht, hb, h⟩
  · exact ⟨ht, hb, h⟩
  · exact ⟨ht, hb, h⟩
  · refine ⟨.inr ht, fun m' hm' => ?_, h⟩
    have hne : t ≠ ":" := by
      rintro rfl
      exact absurd ht.head (by decide)
    rw [Mark.Precedes, if_neg hne]
    exact fun _ => hb m' hm'

/-- A reserved word with a blank behind it can be told from separable marks behind both. -/
theorem Separable.keyword (hw : IsWord t) (h : Separable ms) :
    Separable (.keyword t :: .blank :: ms) := by
  refine .word (.inl rfl) hw (fun m hm => ?_) (.plain (by decide) h)
  obtain rfl := Option.some.inj hm
  rfl

/-- A colon is separable from the end of a line. -/
theorem Separable.colon (hb : EndsMarks ms) (h : Separable ms) : Separable (.colon :: ms) := by
  refine ⟨.inl (by decide), fun m hm => ?_, h⟩
  rw [Mark.colon, Mark.Precedes, if_pos rfl]
  exact hb m hm

/-- No marks are closed. -/
theorem Closed.nil : Closed [] := fun _ hr _ => hr

/-- Closed marks are so one after the other, if the second start with what a word can precede. -/
theorem Closed.append (h : Closed ms) (h' : Closed ms')
    (hb : ∀ r : List Mark, (∀ m ∈ r.head?, m.isBoundary = true) →
      ∀ m ∈ (ms' ++ r).head?, m.isBoundary = true) : Closed (ms ++ ms') := by
  intro r hr hbr
  rw [List.append_assoc]
  exact h _ (h' r hr hbr) (hb r hbr)

/-- Marks in parentheses or brackets are closed. -/
theorem Closed.enclosed {opening closing : Mark} (h : Closed ms)
    (ho : opening = .openParen ∨ opening = .openBracket)
    (hc : closing = .closeParen ∨ closing = .closeBracket) :
    Closed (opening :: (ms ++ [closing])) := by
  intro r hr _
  have hclosing : Separable (closing :: r) ∧ closing.isBoundary = true := by
    rcases hc with rfl | rfl
    · exact ⟨⟨trivial, fun _ _ => trivial, hr⟩, rfl⟩
    · exact ⟨⟨trivial, fun _ _ => trivial, hr⟩, rfl⟩
  have hinner : Separable (ms ++ closing :: r) := by
    refine h _ hclosing.1 fun m hm => ?_
    obtain rfl := Option.some.inj hm
    exact hclosing.2
  rw [List.cons_append, List.append_assoc]
  rcases ho with rfl | rfl
  · exact ⟨trivial, fun _ _ => trivial, hinner⟩
  · exact ⟨trivial, fun _ _ => trivial, hinner⟩

private theorem Closed.closedLine (h : Closed ms) : ClosedLine ms :=
  fun r hr hb => h r hr fun m hm => Markup.isBoundary_of_isBreak (hb m hm)

end Marks

namespace Expr

/-- Whether an expression, its parts aside, can be told from markup. -/
def IsStyled : Expr → Prop
  | name _ id => IsWord id
  | member _ _ attr => IsWord attr
  | const _ value => value.mark.IsClear
  | binary _ _ op _ => op ≠ .lShift
  | slice .. => False
  | _ => True

variable {e : Expr} {es : List Expr} {n : Nat}

/-- Whether the layout of an expression is closed on every line. -/
def IsClosed (e : Expr) : Prop := ∀ n, Closed (e.layout n)

private theorem closed_wrapped (h : e.IsClosed) (w : Bool) (n : Nat) :
    Closed (wrapped w n e.layout) := by
  cases w with
  | false => exact h n
  | true => exact (h _).enclosed (.inl rfl) (.inl rfl)

private theorem closed_operands (op : BoolOp) (h : ∀ e ∈ es, e.IsClosed) :
    Closed (operands op es n) := by
  induction es with
  | nil => exact .nil
  | cons e es ih =>
    have he := closed_wrapped (h e List.mem_cons_self) e.isChoice n
    cases es with
    | nil => exact he
    | cons e' es =>
      have hop : op.spelling ∈ Mark.infixes ∧ op.spelling ∉ ["<<", "<<="] := by
        cases op <;> decide
      refine he.append (fun r hr hb => ?_) fun r _ m hm => ?_
      · refine .plain (by decide) ⟨.inr hop, fun m hm => ?_, trivial, fun _ _ => trivial, ?_⟩
        · obtain rfl := Option.some.inj hm
          exact .inr (.inr rfl)
        · exact ih (fun e he => h e (List.mem_cons_of_mem _ he)) r hr hb
      · obtain rfl := Option.some.inj hm
        rfl

private theorem closed_operation {op : String} (hop : op ∈ Mark.infixes) (hne : op ∉ ["<<", "<<="])
    {ms ms' : List Mark} (h : Closed ms) (h' : Closed ms') :
    Closed (ms ++ .blank :: .operator op :: .blank :: ms') := by
  refine h.append (fun r hr hb => .operation hop hne (h' r hr hb)) fun r _ m hm => ?_
  obtain rfl := Option.some.inj hm
  rfl

private theorem closed_comparisons (ops : List CmpOp) (h : ∀ e ∈ es, e.IsClosed) {ms : List Mark}
    (hms : Closed ms) : Closed (ms ++ comparisons ops es n) := by
  induction es generalizing ops ms with
  | nil =>
    have hnil : comparisons ops [] n = [] := by cases ops <;> rfl
    rw [hnil, List.append_nil]
    exact hms
  | cons e es ih =>
    cases ops with
    | nil =>
      rw [comparisons, List.append_nil]
      · exact hms
      · simp
    | cons op ops =>
      have hop : op.spelling ∈ Mark.infixes ∧ op.spelling ∉ ["<<", "<<="] := by
        cases op <;> decide
      have he := closed_wrapped (h e List.mem_cons_self) e.wrapsCompared n
      have hall := ih ops (fun e he => h e (List.mem_cons_of_mem _ he))
        (closed_operation hop.1 hop.2 hms he)
      rw [comparisons]
      simpa using hall

private theorem closed_named {ms : List Mark} (h : Closed ms) (tf : Bool) :
    Closed (named tf ms) := by
  unfold named
  split
  · next id =>
    cases tf with
    | false => exact h
    | true =>
      have hid : IsWord id := (h [] trivial nofun).1
      exact fun r hr hb => .word (.inr (.inr (.inl rfl))) hid hb hr
  · exact h

private theorem closed_arguments (tf : Bool) (h : ∀ e ∈ es, e.IsClosed) :
    Closed (arguments tf es n) := by
  induction es with
  | nil => exact .nil
  | cons e es ih =>
    have he := closed_named (h e List.mem_cons_self n) tf
    cases es with
    | nil => exact he
    | cons e' es =>
      have hes := ih fun e he => h e (List.mem_cons_of_mem _ he)
      refine he.append (fun r hr hb => .plain (by decide) (hes r hr hb)) fun r _ m hm => ?_
      obtain rfl := Option.some.inj hm
      rfl

private theorem closed_called (tf : Bool) (h : ∀ e ∈ es, e.IsClosed) :
    Closed (wrapped (!ownParens es) n (arguments tf es)) := by
  cases hown : ownParens es with
  | false => exact (closed_arguments tf h).enclosed (.inl rfl) (.inl rfl)
  | true => exact closed_arguments tf h

/-- Arguments start with a parenthesis. -/
theorem head_called (tf : Bool) (es : List Expr) (r : List Mark) :
    ∀ m ∈ (wrapped (!ownParens es) n (arguments tf es) ++ r).head?, m.isBoundary = true := by
  have hopen (ms : List Mark) : ∀ m ∈ (Mark.openParen :: ms).head?, m.isBoundary = true := by
    intro m hm
    obtain rfl := Option.some.inj hm
    rfl
  unfold ownParens
  split
  next p op values =>
    have hnamed (ms : List Mark) : named tf (.openParen :: ms) = .openParen :: ms := by
      cases ms <;> rfl
    simp only [wrapped, Bool.not_true, Bool.false_eq_true, if_false, arguments]
    rw [layout, hnamed]
    exact hopen _
  next => exact hopen _

private theorem closed_member (h : e.IsClosed) {attr : String} (ha : IsWord attr) {m : Mark}
    (hm : m = .predicate attr ∨ m = .plain attr) {ms : List Mark} (hms : Closed ms)
    (hb : ∀ r : List Mark, (∀ m ∈ r.head?, m.isBoundary = true) →
      ∀ m ∈ (ms ++ r).head?, m.isBoundary = true) :
    Closed (wrapped e.wrapsReceiver n e.layout ++ .plain "." :: m :: ms) := by
  refine (closed_wrapped h _ n).append (fun r hr hbr => ?_) fun r _ m hm => ?_
  · exact .plain (by decide) (.word (.inr (.inr (.inr hm))) ha (hb r hbr) (hms r hr hbr))
  · obtain rfl := Option.some.inj hm
    rfl

private theorem closed_call (p : Pos) {func : Expr} {args : List Expr} (hf : func.IsClosed)
    (hv : ∀ q value attr, func = member q value attr → value.IsClosed ∧ IsWord attr)
    (hid : ∀ q id, func = name q id → IsWord id) (h : ∀ e ∈ args, e.IsClosed) :
    (call p func args).IsClosed := by
  intro n
  have hargs (tf : Bool) := closed_called (n := n) tf h
  have hhead (tf : Bool) (r : List Mark) := head_called (n := n) tf args r
  by_cases hn : ∃ q id, func = name q id
  · obtain ⟨q, id, rfl⟩ := hn
    intro r hr hb
    rw [layout, List.cons_append]
    refine .word (t := id) ?_ (hid q id rfl) (hhead _ r) (hargs _ r hr hb)
    split
    · exact .inr (.inr (.inr (.inl rfl)))
    · exact .inr (.inl rfl)
  · by_cases hm : ∃ q value attr, func = member q value attr
    · obtain ⟨q, value, attr, rfl⟩ := hm
      obtain ⟨hvalue, ha⟩ := hv q value attr rfl
      rw [layout]
      refine closed_member hvalue ha ?_ (hargs false) fun r _ => hhead false r
      split
      · exact .inl rfl
      · exact .inr rfl
    · rw [layout]
      · exact (closed_wrapped hf _ n).append (hargs false) fun r _ => hhead false r
      · exact fun q id hq => hn ⟨q, id, hq⟩
      · exact fun q value attr hq => hm ⟨q, value, attr, hq⟩

private theorem closed_unary (p : Pos) (op : UnaryOp) (h : e.IsClosed) :
    (unary p op e).IsClosed := by
  intro n r hr hb
  have hw := closed_wrapped h e.wrapsOperand n r hr hb
  rw [layout]
  by_cases hop : op = .not
  · subst hop
    refine ⟨.inr (by decide), fun m hm => ?_, .plain (by decide) hw⟩
    obtain rfl := Option.some.inj hm
    exact .inr (.inl rfl)
  · have hs : op.spelling ∈ Mark.signs := by cases op <;> first | decide | contradiction
    rw [if_neg hop]
    exact ⟨.inl hs, fun _ _ => .inl hs, hw⟩

private theorem closed_ifExp (p : Pos) {test body orelse : Expr} (ht : test.IsClosed)
    (hb : body.IsClosed)
    (ho : orelse.IsClosed) : (ifExp p test body orelse).IsClosed := by
  intro n
  have hwif : IsWord "if" := .of_toList 'i' ['f'] rfl (by decide)
  have hwelse : IsWord "else" := .of_toList 'e' ['l', 's', 'e'] rfl (by decide)
  have keyword {w : String} (hw : IsWord w) {ms ms' : List Mark} (h : Closed ms) (h' : Closed ms') :
      Closed (ms ++ .blank :: .keyword w :: .blank :: ms') := by
    refine h.append (fun r hr hb => .plain (by decide) (.keyword hw (h' r hr hb)))
      fun r _ m hm => ?_
    obtain rfl := Option.some.inj hm
    rfl
  rw [layout]
  exact keyword hwif (closed_wrapped hb _ n)
    (keyword hwelse (closed_wrapped ht _ n) (closed_wrapped ho _ n))

private theorem closed_const (p : Pos) {v : Constant} (h : v.mark.IsClear) :
    (const p v).IsClosed := by
  intro n r hr hb
  rw [layout]
  rcases mark_cases v with ⟨t, ht⟩ | ⟨t, ht⟩
  · rw [ht] at h ⊢
    exact ⟨h, hb, hr⟩
  · rw [ht] at h ⊢
    exact ⟨h, hb, hr⟩

private theorem closed_tuple (p : Pos) (h : ∀ e ∈ es, e.IsClosed) : (tuple p es).IsClosed := by
  intro n
  have harguments := closed_arguments (n := n) false h
  rw [layout]
  by_cases hl : es.length = 1
  · rw [if_pos hl]
    refine (harguments.append (fun r hr _ => .plain (by decide) hr) fun r _ m hm => ?_).enclosed
      (.inl rfl) (.inl rfl)
    obtain rfl := Option.some.inj hm
    rfl
  · rw [if_neg hl, List.append_nil]
    exact harguments.enclosed (.inl rfl) (.inl rfl)

private theorem closed_subscript (p : Pos) {index : Expr} (hv : e.IsClosed) (hi : index.IsClosed) :
    (subscript p e index).IsClosed := by
  intro n
  rw [layout]
  refine (closed_wrapped hv _ n).append ((hi n).enclosed (.inr rfl) (.inr rfl)) fun r _ m hm => ?_
  obtain rfl := Option.some.inj hm
  rfl

/-- The layout of an expression that can be told from markup is closed. -/
theorem isClosed_of_isStyled (h : ∀ x ∈ e.walk, x.IsStyled) : e.IsClosed := by
  have list {es : List Expr} (ih : ∀ e ∈ es, (∀ x ∈ e.walk, x.IsStyled) → e.IsClosed)
      (h : ∀ x ∈ walkList es, x.IsStyled) : ∀ e ∈ es, e.IsClosed :=
    fun e he => ih e he fun x hx => h x (mem_walkList.2 ⟨e, he, hx⟩)
  induction e using receiverInduction with
  | boolOp p op values ih =>
    simp only [walk, List.forall_mem_cons] at h
    intro n
    rw [layout]
    exact (closed_operands op (list ih h.2)).enclosed (.inl rfl) (.inl rfl)
  | binary p left op right ihl ihr =>
    simp only [walk, List.forall_mem_cons, List.forall_mem_append] at h
    obtain ⟨hne, hl, hr⟩ := h
    have hop : op.spelling ∈ Mark.infixes ∧ op.spelling ∉ ["<<", "<<="] := by
      rw [IsStyled] at hne
      cases op <;> first | decide | contradiction
    intro n
    rw [layout]
    exact closed_operation hop.1 hop.2 (closed_wrapped (ihl hl) _ n) (closed_wrapped (ihr hr) _ n)
  | unary p op operand ih =>
    simp only [walk, List.forall_mem_cons] at h
    exact closed_unary p op (ih h.2)
  | compare p left ops comparators ihl ih =>
    simp only [walk, List.forall_mem_cons, List.forall_mem_append] at h
    intro n
    rw [layout]
    exact closed_comparisons ops (list ih h.2.2) (closed_wrapped (ihl h.2.1) _ n)
  | call p func args ihf ihm ih =>
    simp only [walk, List.forall_mem_cons, List.forall_mem_append] at h
    obtain ⟨-, hfunc, hargs⟩ := h
    refine closed_call p (ihf hfunc) ?_ ?_ (list ih hargs)
    · rintro q value attr rfl
      simp only [walk, List.forall_mem_cons] at hfunc
      exact ⟨ihm q value attr rfl hfunc.2, hfunc.1⟩
    · rintro q id rfl
      exact hfunc _ (self_mem_walk _)
  | member p value attr ih =>
    simp only [walk, List.forall_mem_cons] at h
    intro n
    rw [layout]
    exact closed_member (ih h.2) h.1 (.inr rfl) .nil fun r hb => hb
  | subscript p value index ihv ihi =>
    simp only [walk, List.forall_mem_cons, List.forall_mem_append] at h
    exact closed_subscript p (ihv h.2.1) (ihi h.2.2)
  | ifExp p test body orelse iht ihb iho =>
    simp only [walk, List.forall_mem_cons, List.forall_mem_append] at h
    exact closed_ifExp p (iht h.2.1) (ihb h.2.2.1) (iho h.2.2.2)
  | name p id =>
    intro n r hr hb
    rw [layout]
    exact .word (.inr (.inl rfl)) (h _ (self_mem_walk _)) hb hr
  | const p value => exact closed_const p (h _ (self_mem_walk _))
  | tuple p elts ih =>
    simp only [walk, List.forall_mem_cons] at h
    exact closed_tuple p (list ih h.2)
  | list p elts ih =>
    simp only [walk, List.forall_mem_cons] at h
    intro n
    rw [layout]
    exact (closed_arguments false (list ih h.2)).enclosed (.inr rfl) (.inr rfl)
  | slice p lower upper step => exact (h _ (self_mem_walk _)).elim

end Expr
namespace Stmt

/-- Whether the expressions and the operator of a statement, or its comment, can be told from
markup. -/
def IsStyled : Stmt → Prop
  | assign _ targets value =>
    (∀ t ∈ targets, ∀ x ∈ t.walk, x.IsStyled) ∧ ∀ x ∈ value.walk, x.IsStyled
  | update _ target op value =>
    (∀ x ∈ target.walk, x.IsStyled) ∧ (∀ x ∈ value.walk, x.IsStyled) ∧ op ≠ .lShift
  | ifElse _ test _ _ | whileDo _ test _ _ => ∀ x ∈ test.walk, x.IsStyled
  | forEach _ target iter _ _ => (∀ x ∈ target.walk, x.IsStyled) ∧ ∀ x ∈ iter.walk, x.IsStyled
  | expr p value => match (expr p value).comment? with
    | some text => (Mark.comment text).IsClear
    | none => ∀ x ∈ value.walk, x.IsStyled
  | pass _ | breakOut _ | nextRound _ => True

variable {b body orelse : Block} {n : Nat}

private theorem closedLine_block (h : ∀ s ∈ b, ClosedLine (s.layout n)) :
    ClosedLine (layoutBlock b n) := by
  induction b with
  | nil => exact fun _ hr _ => hr
  | cons s ss ih =>
    intro r hr hb
    have hss := ih (fun s hs => h s (List.mem_cons_of_mem _ hs))
    rw [layoutBlock, List.cons_append, List.append_assoc]
    refine ⟨trivial, fun _ _ => trivial, h s List.mem_cons_self _ (hss r hr hb) ?_⟩
    cases ss with
    | nil => exact hb
    | cons s' ss => exact .lineBreak n _

private theorem endsMarks_block (b : Block) (n : Nat) {r : List Mark} (h : EndsMarks r) :
    EndsMarks (layoutBlock b n ++ r) := by
  cases b with
  | nil => exact h
  | cons s ss => exact .lineBreak n _

private theorem endsMarks_else (chained : Bool) (b : Block) (n : Nat) {r : List Mark}
    (h : EndsMarks r) :
    EndsMarks (layoutElse chained b n ++ r) := by
  unfold layoutElse
  split
  · exact h
  · split
    · exact .lineBreak n _
    · exact .lineBreak n _
  · exact .lineBreak n _

/-- A block and what stands behind it, behind the colon of its head. -/
theorem closedLine_suite {ms : List Mark} (hms : Closed ms) {tail : List Mark} {m : Nat}
    (h : ∀ s ∈ b, ClosedLine (s.layout m)) (htail : ClosedLine tail)
    (hends : ∀ r, EndsMarks r → EndsMarks (tail ++ r)) :
    ClosedLine (ms ++ .colon :: (layoutBlock b m ++ tail)) := by
  intro r hr hb
  have hrest := closedLine_block h _ (htail r hr hb) (hends r hb)
  have hcolon : Separable (.colon :: (layoutBlock b m ++ (tail ++ r))) :=
    .colon (endsMarks_block b m (hends r hb)) hrest
  rw [List.append_assoc, List.cons_append, List.append_assoc]
  refine hms _ hcolon fun x hx => ?_
  obtain rfl := Option.some.inj hx
  rfl

private theorem closedLine_elseBlock (h : ∀ s ∈ b, ClosedLine (s.layout (n + blockIndent))) :
    ClosedLine (.lineBreak n :: .keyword "else" :: .colon :: layoutBlock b (n + blockIndent)) := by
  have hword : IsWord "else" := .of_toList 'e' ['l', 's', 'e'] rfl (by decide)
  intro r hr hb
  have hcolon : Separable (.colon :: (layoutBlock b (n + blockIndent) ++ r)) :=
    .colon (endsMarks_block b _ hb) (closedLine_block h r hr hb)
  refine ⟨trivial, fun _ _ => trivial, .word (.inl rfl) hword (fun m hm => ?_) hcolon⟩
  obtain rfl := Option.some.inj hm
  rfl

private theorem closedLine_else (chained : Bool) (h : ∀ s ∈ orelse, ∀ n, ClosedLine (s.layout n))
    (helif : ∀ p test body orelse', ifElse p test body orelse' ∈ orelse →
      ClosedLine (layoutIf "elif" test body orelse' n)) :
    ClosedLine (layoutElse chained orelse n) := by
  have helse : ∀ b : Block, (∀ s ∈ b, ∀ n, ClosedLine (s.layout n)) → ClosedLine
      (.lineBreak n :: .keyword "else" :: .colon :: layoutBlock b (n + blockIndent)) :=
    fun b hb => closedLine_elseBlock fun s hs => hb s hs _
  unfold layoutElse
  split
  · exact fun _ hr _ => hr
  · next p test body orelse' =>
    split
    · have hif := helif p test body orelse' List.mem_cons_self
      exact fun r hr hb => ⟨trivial, fun _ _ => trivial, hif r hr hb⟩
    · simpa [layoutBlock] using helse _ h
  · simpa [layoutBlock] using helse _ h

private theorem closed_targets {targets : List Expr} (h : ∀ t ∈ targets, t.IsClosed)
    {ms : List Mark}
    (hms : Closed ms) :
    Closed (targets.flatMap (fun t => t.layout n ++ [.blank, .operator "=", .blank]) ++ ms) := by
  induction targets with
  | nil => exact hms
  | cons t ts ih =>
    have hrest := ih fun t ht => h t (List.mem_cons_of_mem _ ht)
    have hall := Expr.closed_operation (show "=" ∈ Mark.infixes by decide) (by decide)
      (h t List.mem_cons_self n) hrest
    rw [List.flatMap_cons, List.append_assoc, List.append_assoc]
    exact hall

private theorem closed_keyword {w : String} (hw : IsWord w) : Closed [.keyword w] :=
  fun _ hr hb => .word (.inl rfl) hw hb hr

private theorem closed_head {w : String} (hw : IsWord w) {ms : List Mark} (h : Closed ms) :
    Closed (.keyword w :: .blank :: ms) :=
  fun r hr hb => .keyword hw (h r hr hb)

/-- The layout of a statement that can be told from markup, with those of its blocks, is separable
in front of the end of a line. -/
theorem closedLine_of_isStyled {s : Stmt} (h : ∀ x ∈ s.nested, x.IsStyled) (n : Nat) :
    ClosedLine (s.layout n) := by
  -- the layout of an `else` looks into an `if` that is alone in it
  suffices hs : (∀ n, ClosedLine (s.layout n)) ∧ ∀ p test body orelse,
      s = ifElse p test body orelse →
        ∀ n, ClosedLine (layoutIf "elif" test body orelse n) from hs.1 n
  clear n
  have closed {e : Expr} (h : ∀ x ∈ e.walk, x.IsStyled) : e.IsClosed := Expr.isClosed_of_isStyled h
  have block {b : Block} {P : Stmt → Prop}
      (ih : ∀ s ∈ b, (∀ x ∈ s.nested, x.IsStyled) → P s) (h : ∀ x ∈ nestedBlock b, x.IsStyled) :
      ∀ s ∈ b, P s := fun s hs => ih s hs fun x hx => h x (mem_nestedBlock.2 ⟨s, hs, hx⟩)
  induction s using partsInduction with
  | assign p targets value =>
    obtain ⟨ht, hv⟩ : IsStyled (assign p targets value) := h _ List.mem_cons_self
    refine ⟨fun n => ?_, (by simp)⟩
    rw [layout]
    exact (closed_targets (fun t h => closed (ht t h)) (closed hv n)).closedLine
  | update p target op value =>
    obtain ⟨ht, hv, hne⟩ : IsStyled (update p target op value) := h _ List.mem_cons_self
    have hop : op.spelling ++ "=" ∈ Mark.infixes ∧ op.spelling ++ "=" ∉ ["<<", "<<="] := by
      cases op <;> first | decide | contradiction
    refine ⟨fun n => ?_, (by simp)⟩
    rw [layout]
    exact (Expr.closed_operation hop.1 hop.2 (closed ht n) (closed hv n)).closedLine
  | ifElse p test body orelse ihb iho =>
    simp only [nested, List.forall_mem_cons, List.forall_mem_append] at h
    obtain ⟨ht, hb, ho⟩ := h
    replace hb := block ihb hb
    replace ho := block iho ho
    have hif {w : String} (hw : IsWord w) (n : Nat) :
        ClosedLine (layoutIf w test body orelse n) := by
      have helse : ClosedLine (layoutElse true orelse n) :=
        closedLine_else true (fun s hs => (ho s hs).1) fun p' test' body' orelse' hs =>
          (ho _ hs).2 p' test' body' orelse' rfl n
      exact closedLine_suite (closed_head hw (closed ht n)) (fun s hs => (hb s hs).1 _) helse
        fun r hr => endsMarks_else true orelse n hr
    refine ⟨fun n => ?_, ?_⟩
    · rw [layout]
      exact hif (.of_toList 'i' ['f'] rfl (by decide)) n
    · rintro p' test' body' orelse' he n
      cases he
      exact hif (.of_toList 'e' ['l', 'i', 'f'] rfl (by decide)) n
  | forEach p target iter body orelse ihb iho =>
    simp only [nested, List.forall_mem_cons, List.forall_mem_append] at h
    obtain ⟨⟨ht, hi⟩, hb, ho⟩ := h
    replace hb := block ihb hb
    replace ho := block iho ho
    have hword : IsWord "for" := .of_toList 'f' ['o', 'r'] rfl (by decide)
    refine ⟨fun n => ?_, (by simp)⟩
    have helse : ClosedLine (layoutElse false orelse n) :=
      closedLine_else false (fun s hs => (ho s hs).1) fun p' test' body' orelse' hs =>
        (ho _ hs).2 p' test' body' orelse' rfl n
    have hhead := closed_head hword
      (Expr.closed_operation (show "in" ∈ Mark.infixes by decide) (by decide) (closed ht n)
        (closed hi n))
    have hall := closedLine_suite hhead (fun s hs => (hb s hs).1 (n + blockIndent)) helse
      fun r hr => endsMarks_else false orelse n hr
    rw [layout]
    simpa using hall
  | whileDo p test body orelse ihb iho =>
    simp only [nested, List.forall_mem_cons, List.forall_mem_append] at h
    obtain ⟨ht, hb, ho⟩ := h
    replace hb := block ihb hb
    replace ho := block iho ho
    have hword : IsWord "while" := .of_toList 'w' ['h', 'i', 'l', 'e'] rfl (by decide)
    refine ⟨fun n => ?_, (by simp)⟩
    have helse : ClosedLine (layoutElse false orelse n) :=
      closedLine_else false (fun s hs => (ho s hs).1) fun p' test' body' orelse' hs =>
        (ho _ hs).2 p' test' body' orelse' rfl n
    rw [layout]
    exact closedLine_suite (closed_head hword (closed ht n)) (fun s hs => (hb s hs).1 _) helse
      fun r hr => endsMarks_else false orelse n hr
  | expr p value =>
    have hself : IsStyled (expr p value) := h _ List.mem_cons_self
    refine ⟨fun n => ?_, (by simp)⟩
    rw [IsStyled] at hself
    rw [layout]
    cases hc : (expr p value).comment? with
    | some text =>
      rw [hc] at hself
      exact fun r hr hb => ⟨hself, hb, hr⟩
    | none =>
      rw [hc] at hself
      exact (closed hself n).closedLine
  | pass p =>
    exact ⟨fun _ => (closed_keyword (.of_toList 'p' ['a', 's', 's'] rfl (by decide))).closedLine,
      (by simp)⟩
  | breakOut p =>
    exact ⟨fun _ =>
      (closed_keyword (.of_toList 'b' ['r', 'e', 'a', 'k'] rfl (by decide))).closedLine,
      (by simp)⟩
  | nextRound p =>
    refine ⟨fun _ => (closed_keyword ?_).closedLine, (by simp)⟩
    exact .of_toList 'c' ['o', 'n', 't', 'i', 'n', 'u', 'e'] rfl (by decide)

end Stmt

namespace Block

/-- The layout of a statement that can be told from markup is separable. -/
theorem separable_layout {b : Block} (h : ∀ x ∈ b.statements, x.IsStyled) : Separable b.layout := by
  cases b with
  | nil => trivial
  | cons s ss =>
    have hstmt : ∀ x ∈ s :: ss, ClosedLine (x.layout 0) := fun x hx =>
      Stmt.closedLine_of_isStyled (fun y hy => h y (Stmt.mem_nestedBlock.2 ⟨x, hx, hy⟩)) 0
    obtain ⟨hs, hss⟩ := List.forall_mem_cons.1 hstmt
    have hrest := Stmt.closedLine_block hss [] trivial .nil
    rw [List.append_nil] at hrest
    have hends := Stmt.endsMarks_block ss 0 EndsMarks.nil
    rw [List.append_nil] at hends
    exact hs _ hrest hends

/-- Taking the markup of a statement away that can be told from it gives the source text. -/
theorem plain_render_of_isStyled (s : Subject) {b : Block} (h : ∀ x ∈ b.statements, x.IsStyled) :
    Markup.plain (Markup.render s b) = b.source := by
  rw [Markup.render, Markup.plain_document (separable_layout h), source, Style.document]
  exact (List.append_nil _).symm

end Block

/-- Whether nothing of an expression, its parts aside, can be taken for markup: its name is a word,
and it is no text, no fraction, no slice and no left shift. -/
def Expr.isUnambiguous : Expr → Bool
  | name _ id => decide (IsWord id)
  | member _ _ attr => decide (IsWord attr)
  | const _ (.str _) | const _ (.float _) | slice .. => false
  | binary _ _ op _ => op != .lShift
  | _ => true

/-- Whether a statement, its expressions and blocks aside, is no left shift. -/
def Stmt.isUnambiguous : Stmt → Bool
  | update _ _ op _ => op != .lShift
  | _ => true

/-- What cannot be taken for markup can be told from it. -/
theorem Expr.IsStyled.of_isUnambiguous {e : Expr} (h : e.isUnambiguous = true) : e.IsStyled := by
  cases e with
  | name p id => simpa [isUnambiguous, IsStyled] using h
  | member p value attr => simpa [isUnambiguous, IsStyled] using h
  | binary p left op right => simpa [isUnambiguous, IsStyled] using h
  | const p value =>
    cases value with
    | bool v => cases v <;> exact .inl (.of_toList _ _ rfl (by decide))
    | none => exact .inl (.of_toList _ _ rfl (by decide))
    | int n => exact isNumeral_toString n
    | float x => exact absurd h nofun
    | str t => exact absurd h nofun
  | slice p lower upper step => exact absurd h nofun
  | _ => trivial

/-- So can a statement of such expressions. -/
theorem Stmt.IsStyled.of_isUnambiguous {s : Stmt} (hs : s.isUnambiguous = true)
    (h : ∀ x ∈ s.walk, x.isUnambiguous = true) : s.IsStyled := by
  have styled {e : Expr} (he : e.walk ⊆ s.walk) : ∀ x ∈ e.walk, x.IsStyled :=
    fun x hx => .of_isUnambiguous (h x (he hx))
  cases s with
  | assign p targets value =>
    refine ⟨fun t ht => styled fun x hx => ?_, styled (List.subset_append_right _ _)⟩
    exact List.mem_append_left _ (Expr.mem_walkList.2 ⟨t, ht, hx⟩)
  | update p target op value =>
    refine ⟨styled (List.subset_append_left _ _), styled (List.subset_append_right _ _), ?_⟩
    simpa [isUnambiguous] using hs
  | ifElse p test body orelse | whileDo p test body orelse =>
    exact styled (List.subset_append_left _ _)
  | forEach p target iter body orelse =>
    refine ⟨styled (List.subset_append_left _ _), styled ?_⟩
    exact List.subset_append_of_subset_right _ (List.subset_append_left _ _)
  | expr p value =>
    rw [IsStyled]
    cases hc : (expr p value).comment? with
    | none => exact styled (List.Subset.refl _)
    | some text =>
      obtain ⟨p₁, p₂, p₃, rfl⟩ := eq_call_of_comment? hc
      have hstr := h (.const p₃ (.str text)) (by simp [walk, Expr.walk, Expr.walkList])
      exact absurd hstr nofun
  | pass | breakOut | nextRound => trivial

namespace Block

/-- Taking the markup of a statement away gives its source text, if there are no texts, comments,
fractions, slices and left shifts in it and its names are words, whatever they link to. -/
theorem plain_render (s : Subject) {b : Block} (hb : ∀ x ∈ b.walk, x.isUnambiguous = true)
    (hs : ∀ x ∈ b.statements, x.isUnambiguous = true) :
    Markup.plain (Markup.render s b) = b.source := by
  refine plain_render_of_isStyled s fun x hx => .of_isUnambiguous (hs x hx) fun e he => hb e ?_
  exact Stmt.walk_subset_of_mem_nestedBlock (fun _ _ => Stmt.walk_subset_of_mem_nested) hx he

/-- A command whose parameter is named like a link, and its flags. -/
private def linkedCommand : Subject where
  registry := { entities := [⟨"vkCmdDraw", .command, [⟨"flink", "VkFlags", 0, none, none⟩], none,
      none, []⟩, ⟨"VkFlags", .basetype, [], none, none, []⟩] }
  api := "vkCmdDraw"

/-- A statement with a condition on a feature and on flags, and an assignment in its block. -/
private def requireFlags : Block :=
  [.ifElse .none (.boolOp .none .and [.call .none (.name .none "is_feature_enabled")
      [.name .none "sparseBinding"], .compare .none (.binary .none (.name .none "flink") .bitAnd
      (.const .none (.int 1))) [.ltE] [.name .none "VkFlags"]])
    [.update .none (.name .none "x") .rShift (.name .none "vkCmdDraw")] []]

/-- The markup of a parameter named like a link, of a feature, and of operators that share
characters with the markup goes away. -/
theorem plain_render_requireFlags : (∀ x ∈ requireFlags.walk, x.isUnambiguous = true) ∧
    (∀ x ∈ requireFlags.statements, x.isUnambiguous = true) ∧
    Markup.plain (Markup.render linkedCommand requireFlags) = requireFlags.source :=
  have hwalk : ∀ x ∈ requireFlags.walk, x.isUnambiguous = true := by decide
  have hstatements : ∀ x ∈ requireFlags.statements, x.isUnambiguous = true := by decide
  ⟨hwalk, hstatements, plain_render linkedCommand hwalk hstatements⟩

end Block
end ValidUsage
