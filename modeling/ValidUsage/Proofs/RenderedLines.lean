import ValidUsage.Proofs.LayoutLines
import ValidUsage.Proofs.Undecorate
import ValidUsage.Prose.Bullet

/-!
# The lines of a rendering

A mark of a layout stands on one line when the names and comments of its statement do: literals are
escaped, and ends of lines are marks of their own. So a line of the markup ends with the sign of a
line break or with the frame, and each bullet of the prose is a line.
-/

namespace ValidUsage

/-! ## Literals -/

private theorem newline_ne_digitChar (n : Nat) : ∀ c ∈ Nat.toDigits 10 n, c ≠ '\n' := by
  intro c hc he
  have hdigit := Nat.isDigit_of_mem_toDigits (by decide) (by decide) hc
  rw [he] at hdigit
  exact absurd hdigit (by decide)

private theorem newline_notMem_toString (n : Nat) : '\n' ∉ (toString n).toList := by
  intro hm
  have hchar := (isNumeral_toString n).chars '\n' hm
  exact absurd hchar (by decide)

namespace DecimalStyle

private theorem newline_notMem_digits {style : DecimalStyle} (hs : '\n' ∉ style.plus)
    (d : Decimal) :
    '\n' ∉ style.digits d := by
  have hdigits : '\n' ∉ Nat.toDigits 10 d.digits := fun hm => newline_ne_digitChar _ _ hm rfl
  have hpower (n : Nat) : '\n' ∉ Nat.toDigits 10 n := fun hm => newline_ne_digitChar _ _ hm rfl
  have hzeros (n : Nat) : '\n' ∉ List.replicate n '0' := fun hm =>
    absurd (List.eq_of_mem_replicate hm) (by decide)
  have htake (n : Nat) : '\n' ∉ (Nat.toDigits 10 d.digits).take n := fun hm =>
    hdigits (List.mem_of_mem_take hm)
  have hdrop (n : Nat) : '\n' ∉ (Nat.toDigits 10 d.digits).drop n := fun hm =>
    hdigits (List.mem_of_mem_drop hm)
  unfold digits
  simp only
  split
  · split
    · simp [hzeros, hdigits]
    · simp only [List.mem_append, List.mem_cons, htake, hzeros, false_or]
      split
      · decide
      · simpa using hdrop _
  · rw [List.mem_append, List.mem_cons]
    rintro (hm | hm | hm)
    · split at hm
      · rename_i c c' cs he
        rw [he] at hdigits
        simp at hdigits hm
        tauto
      · exact hdigits hm
    · exact absurd hm (by decide)
    · split at hm
      · simp [hpower] at hm
      · simp [hpower, hs] at hm

private theorem newline_notMem_write {style : DecimalStyle} (hs : '\n' ∉ style.plus)
    (x : Binary64) :
    '\n' ∉ (style.write x).toList := by
  have hbody : '\n' ∉ (if x.mant = 0 then ['0', '.', '0']
      else style.digits (x.shortest style.tieToEven)) := by
    split
    · decide
    · exact newline_notMem_digits hs _
  unfold write
  rw [String.toList_ofList]
  split
  · simpa using hbody
  · exact hbody

end DecimalStyle

private theorem Constant.isFlat_mark (v : Constant) : v.mark.IsFlat := by
  cases v with
  | bool b => cases b <;> exact show '\n' ∉ _ by decide
  | none => exact show '\n' ∉ _ by decide
  | int n => exact newline_notMem_toString n
  | float x => exact DecimalStyle.newline_notMem_write (by decide) x
  | str s =>
    show '\n' ∉ (Literal.quote s).toList
    simp [Literal.quote, Paragraph.not_mem_escape]

/-! ## Layouts -/

namespace Expr

/-- Whether the name that an expression has, its parts aside, stands on one line. -/
def IsFlat : Expr → Prop
  | name _ id => '\n' ∉ id.toList
  | member _ _ attr => '\n' ∉ attr.toList
  | _ => True

/-- Whether the marks of an expression stand on one line each. -/
def IsLaidFlat (e : Expr) : Prop := ∀ n, ∀ m ∈ e.layout n, m.IsFlat

variable {e : Expr} {es : List Expr} {n : Nat}

private theorem isFlat_parens {ms : List Mark} (h : ∀ m ∈ ms, m.IsFlat) :
    ∀ m ∈ .openParen :: (ms ++ [.closeParen]), m.IsFlat :=
  List.forall_mem_cons.2 ⟨trivial, List.forall_mem_append.2
    ⟨h, List.forall_mem_singleton.2 trivial⟩⟩

private theorem isFlat_brackets {ms : List Mark} (h : ∀ m ∈ ms, m.IsFlat) :
    ∀ m ∈ .openBracket :: (ms ++ [.closeBracket]), m.IsFlat :=
  List.forall_mem_cons.2 ⟨trivial, List.forall_mem_append.2
    ⟨h, List.forall_mem_singleton.2 trivial⟩⟩

private theorem isFlat_wrapped (h : e.IsLaidFlat) (w : Bool) (n : Nat) :
    ∀ m ∈ wrapped w n e.layout, m.IsFlat := by
  cases w with
  | false => exact h n
  | true => exact isFlat_parens (h _)

private theorem isFlat_named (tf : Bool) {ms : List Mark} (h : ∀ m ∈ ms, m.IsFlat) :
    ∀ m ∈ named tf ms, m.IsFlat := by
  unfold named
  split
  · next id =>
    have hid : Mark.IsFlat (.name id) := h _ List.mem_cons_self
    cases tf with
    | false => exact h
    | true => exact List.forall_mem_singleton.2 hid
  · exact h

private theorem isFlat_arguments (tf : Bool) (h : ∀ e ∈ es, e.IsLaidFlat) :
    ∀ m ∈ arguments tf es n, m.IsFlat := by
  induction es with
  | nil => exact nofun
  | cons e es ih =>
    have he := isFlat_named tf (h e List.mem_cons_self n)
    have hcomma : Mark.comma.IsFlat := show '\n' ∉ _ by decide
    cases es with
    | nil => exact he
    | cons e' es =>
      have hes := ih fun e he => h e (List.mem_cons_of_mem _ he)
      exact List.forall_mem_append.2 ⟨he, List.forall_mem_cons.2 ⟨hcomma, hes⟩⟩

private theorem isFlat_called (tf : Bool) (h : ∀ e ∈ es, e.IsLaidFlat) (w : Bool) :
    ∀ m ∈ wrapped w n (arguments tf es), m.IsFlat := by
  cases w with
  | false => exact isFlat_arguments tf h
  | true => exact isFlat_parens (isFlat_arguments tf h)

private theorem isFlat_bound {before : List Mark} (hb : ∀ m ∈ before, m.IsFlat) {o : Option Expr}
    (h : ∀ e ∈ o, e.IsLaidFlat) : ∀ m ∈ bound before o n, m.IsFlat := by
  cases o with
  | none => exact nofun
  | some e => exact List.forall_mem_append.2 ⟨hb, h e rfl n⟩

/-- Operators and what stands around them. -/
theorem isFlat_operation {op : String} (hop : '\n' ∉ op.toList) {ms : List Mark}
    (h : ∀ m ∈ ms, m.IsFlat) : ∀ m ∈ .blank :: .operator op :: .blank :: ms, m.IsFlat := by
  have hblank : Mark.blank.IsFlat := show '\n' ∉ _ by decide
  exact List.forall_mem_cons.2 ⟨hblank, List.forall_mem_cons.2 ⟨hop,
    List.forall_mem_cons.2 ⟨hblank, h⟩⟩⟩

private theorem isFlat_operands (op : BoolOp) (h : ∀ e ∈ es, e.IsLaidFlat) :
    ∀ m ∈ operands op es n, m.IsFlat := by
  induction es with
  | nil => exact nofun
  | cons e es ih =>
    have he := isFlat_wrapped (h e List.mem_cons_self) e.isChoice n
    have hop : '\n' ∉ op.spelling.toList := by cases op <;> decide
    cases es with
    | nil => exact he
    | cons e' es =>
      have hes := ih fun e he => h e (List.mem_cons_of_mem _ he)
      have hblank : Mark.blank.IsFlat := show '\n' ∉ _ by decide
      exact List.forall_mem_append.2 ⟨he, List.forall_mem_cons.2 ⟨hblank,
        List.forall_mem_cons.2 ⟨hop, List.forall_mem_cons.2 ⟨trivial, hes⟩⟩⟩⟩

private theorem isFlat_comparisons (ops : List CmpOp) (h : ∀ e ∈ es, e.IsLaidFlat) :
    ∀ m ∈ comparisons ops es n, m.IsFlat := by
  induction es generalizing ops with
  | nil => cases ops <;> exact nofun
  | cons e es ih =>
    cases ops with
    | nil => exact nofun
    | cons op ops =>
      have he := isFlat_wrapped (h e List.mem_cons_self) e.wrapsCompared n
      have hes := ih ops fun e he => h e (List.mem_cons_of_mem _ he)
      have hop : '\n' ∉ op.spelling.toList := by cases op <;> decide
      rw [comparisons]
      exact isFlat_operation hop (List.forall_mem_append.2 ⟨he, hes⟩)

private theorem isLaidFlat_call (p : Pos) {func : Expr} {args : List Expr} (hf : func.IsLaidFlat)
    (h : ∀ e ∈ args, e.IsLaidFlat) : (call p func args).IsLaidFlat := by
  intro n
  have hargs (tf : Bool) := isFlat_called (n := n) tf h (!ownParens args)
  have hfunc := hf n
  by_cases hn : ∃ q id, func = name q id
  · obtain ⟨q, id, rfl⟩ := hn
    rw [layout_name] at hfunc
    have hid : '\n' ∉ id.toList := hfunc _ List.mem_cons_self
    rw [layout]
    refine List.forall_mem_cons.2 ⟨?_, hargs _⟩
    split
    · exact hid
    · exact hid
  · by_cases hm : ∃ q value attr, func = member q value attr
    · obtain ⟨q, value, attr, rfl⟩ := hm
      rw [layout] at hfunc
      obtain ⟨hvalue, hattr⟩ := List.forall_mem_append.1 hfunc
      obtain ⟨hpoint, hattr⟩ := List.forall_mem_cons.1 hattr
      have hid : '\n' ∉ attr.toList := hattr _ List.mem_cons_self
      rw [layout]
      refine List.forall_mem_append.2 ⟨hvalue, List.forall_mem_cons.2 ⟨hpoint,
        List.forall_mem_cons.2 ⟨?_, hargs _⟩⟩⟩
      split
      · exact hid
      · exact hid
    · rw [layout]
      · exact List.forall_mem_append.2 ⟨isFlat_wrapped hf _ n, hargs _⟩
      · exact fun q id hq => hn ⟨q, id, hq⟩
      · exact fun q value attr hq => hm ⟨q, value, attr, hq⟩

/-- The marks of an expression stand on one line each when its names do. -/
theorem isLaidFlat_of_isFlat (h : ∀ x ∈ e.walk, x.IsFlat) : e.IsLaidFlat := by
  have list {es : List Expr} (ih : ∀ e ∈ es, (∀ x ∈ e.walk, x.IsFlat) → e.IsLaidFlat)
      (h : ∀ x ∈ walkList es, x.IsFlat) : ∀ e ∈ es, e.IsLaidFlat :=
    fun e he => ih e he fun x hx => h x (mem_walkList.2 ⟨e, he, hx⟩)
  have bounds {o : Option Expr} (ih : ∀ e ∈ o, (∀ x ∈ e.walk, x.IsFlat) → e.IsLaidFlat)
      (h : ∀ x ∈ walkOption o, x.IsFlat) : ∀ e ∈ o, e.IsLaidFlat := by
    rintro e rfl
    exact ih e rfl h
  have hplain : ∀ t ∈ [" ", ", ", ":", ".", ","], '\n' ∉ t.toList := by decide
  have hblank : Mark.blank.IsFlat := hplain _ (by decide)
  have hcolon : Mark.colon.IsFlat := hplain _ (by decide)
  intro n
  induction e using partsInduction generalizing n with
  | boolOp p op values ih =>
    simp only [walk, List.forall_mem_cons] at h
    have hvalues := isFlat_operands (n := n + parenIndent) op (list ih h.2)
    rw [layout]
    exact isFlat_parens hvalues
  | binary p left op right ihl ihr =>
    simp only [walk, List.forall_mem_cons, List.forall_mem_append] at h
    have hop : '\n' ∉ op.spelling.toList := by cases op <;> decide
    rw [layout]
    exact List.forall_mem_append.2 ⟨isFlat_wrapped (ihl h.2.1) _ n,
      isFlat_operation hop (isFlat_wrapped (ihr h.2.2) _ n)⟩
  | unary p op operand ih =>
    simp only [walk, List.forall_mem_cons] at h
    have hop : '\n' ∉ op.spelling.toList := by cases op <;> decide
    rw [layout]
    refine List.forall_mem_cons.2 ⟨hop, List.forall_mem_append.2 ⟨?_, isFlat_wrapped (ih h.2) _ n⟩⟩
    split
    · exact List.forall_mem_singleton.2 hblank
    · rintro _ ⟨⟩
  | compare p left ops comparators ihl ih =>
    simp only [walk, List.forall_mem_cons, List.forall_mem_append] at h
    rw [layout]
    exact List.forall_mem_append.2 ⟨isFlat_wrapped (ihl h.2.1) _ n,
      isFlat_comparisons ops (list ih h.2.2)⟩
  | call p func args ihf ih =>
    simp only [walk, List.forall_mem_cons, List.forall_mem_append] at h
    exact isLaidFlat_call p (ihf h.2.1) (list ih h.2.2) n
  | member p value attr ih =>
    simp only [walk, List.forall_mem_cons] at h
    have hpoint : Mark.IsFlat (.plain ".") := hplain _ (by decide)
    have hattr : Mark.IsFlat (.plain attr) := h.1
    rw [layout]
    refine List.forall_mem_append.2 ⟨isFlat_wrapped (ih h.2) _ n, ?_⟩
    exact List.forall_mem_cons.2 ⟨hpoint, List.forall_mem_singleton.2 hattr⟩
  | subscript p value index ihv ihi =>
    simp only [walk, List.forall_mem_cons, List.forall_mem_append] at h
    have hindex := ihi h.2.2 n
    rw [layout]
    exact List.forall_mem_append.2 ⟨isFlat_wrapped (ihv h.2.1) _ n,
      isFlat_brackets hindex⟩
  | ifExp p test body orelse iht ihb iho =>
    simp only [walk, List.forall_mem_cons, List.forall_mem_append] at h
    have keyword {w : String} (hw : '\n' ∉ w.toList) {ms ms' : List Mark}
        (hms : ∀ m ∈ ms, m.IsFlat) (hms' : ∀ m ∈ ms', m.IsFlat) :
        ∀ m ∈ ms ++ .blank :: .keyword w :: .blank :: ms', m.IsFlat :=
      List.forall_mem_append.2 ⟨hms, List.forall_mem_cons.2 ⟨hblank, List.forall_mem_cons.2 ⟨hw,
        List.forall_mem_cons.2 ⟨hblank, hms'⟩⟩⟩⟩
    rw [layout]
    exact keyword (by decide) (isFlat_wrapped (ihb h.2.2.1) _ n)
      (keyword (by decide) (isFlat_wrapped (iht h.2.1) _ n) (isFlat_wrapped (iho h.2.2.2) _ n))
  | name p id =>
    rw [layout_name]
    exact List.forall_mem_singleton.2 (h _ (self_mem_walk _))
  | const p value =>
    rw [layout_const]
    exact List.forall_mem_singleton.2 value.isFlat_mark
  | tuple p elts ih =>
    simp only [walk, List.forall_mem_cons] at h
    have helts := isFlat_arguments (n := n) false (list ih h.2)
    have hcomma : Mark.IsFlat (.plain ",") := hplain _ (by decide)
    rw [layout]
    refine isFlat_parens (List.forall_mem_append.2 ⟨helts, ?_⟩)
    split
    · exact List.forall_mem_singleton.2 hcomma
    · rintro _ ⟨⟩
  | list p elts ih =>
    simp only [walk, List.forall_mem_cons] at h
    have helts := isFlat_arguments (n := n) false (list ih h.2)
    rw [layout]
    exact isFlat_brackets helts
  | slice p lower upper step ihl ihu ihs =>
    simp only [walk, List.forall_mem_cons, List.forall_mem_append] at h
    obtain ⟨-, hl, hu, hs⟩ := h
    have hlower := isFlat_bound (n := n) (List.forall_mem_nil _) (bounds ihl hl)
    have hupper := isFlat_bound (n := n) (List.forall_mem_nil _) (bounds ihu hu)
    have hstep := isFlat_bound (n := n) (List.forall_mem_singleton.2 hcolon) (bounds ihs hs)
    rw [layout]
    exact List.forall_mem_append.2 ⟨hlower, List.forall_mem_cons.2
      ⟨hcolon, List.forall_mem_append.2 ⟨hupper, hstep⟩⟩⟩

end Expr

namespace Stmt

/-- Whether the names and comments of a statement stand on one line each. -/
structure IsFlat (s : Stmt) : Prop where
  names : ∀ x ∈ s.walk, x.IsFlat
  comments : ∀ x ∈ s.nested, ∀ t ∈ x.comment?, '\n' ∉ t.toList

/-- Whether the marks of a statement stand on one line each. -/
def IsLaidFlat (s : Stmt) : Prop := ∀ n, ∀ m ∈ s.layout n, m.IsFlat

variable {b : Block} {n : Nat}

/-- The statements of a block have the names and comments of the block. -/
theorem isFlat_of_mem (hn : ∀ x ∈ walkBlock b, x.IsFlat)
    (hc : ∀ x ∈ nestedBlock b, ∀ t ∈ x.comment?, '\n' ∉ t.toList) : ∀ s ∈ b, s.IsFlat :=
  fun s hs => ⟨fun x hx => hn x (mem_walkBlock.2 ⟨s, hs, hx⟩),
    fun x hx => hc x (mem_nestedBlock.2 ⟨s, hs, hx⟩)⟩

/-- The test and the blocks of a flat `if` are flat. -/
theorem IsFlat.ifElse {p : Pos} {test : Expr} {body orelse : Block}
    (h : (ifElse p test body orelse).IsFlat) :
    (∀ x ∈ test.walk, x.IsFlat) ∧ (∀ s ∈ body, s.IsFlat) ∧ ∀ s ∈ orelse, s.IsFlat := by
  obtain ⟨hn, hc⟩ := h
  simp only [walk, nested, List.forall_mem_cons, List.forall_mem_append] at hn hc
  exact ⟨hn.1, isFlat_of_mem hn.2.1 hc.2.1, isFlat_of_mem hn.2.2 hc.2.2⟩

/-- So are those of a flat `while`. -/
theorem IsFlat.whileDo {p : Pos} {test : Expr} {body orelse : Block}
    (h : (whileDo p test body orelse).IsFlat) :
    (∀ x ∈ test.walk, x.IsFlat) ∧ (∀ s ∈ body, s.IsFlat) ∧ ∀ s ∈ orelse, s.IsFlat := by
  obtain ⟨hn, hc⟩ := h
  simp only [walk, nested, List.forall_mem_cons, List.forall_mem_append] at hn hc
  exact ⟨hn.1, isFlat_of_mem hn.2.1 hc.2.1, isFlat_of_mem hn.2.2 hc.2.2⟩

/-- So are the parts of a flat loop. -/
theorem IsFlat.forEach {p : Pos} {target iter : Expr} {body orelse : Block}
    (h : (forEach p target iter body orelse).IsFlat) :
    (∀ x ∈ target.walk, x.IsFlat) ∧ (∀ x ∈ iter.walk, x.IsFlat) ∧ (∀ s ∈ body, s.IsFlat) ∧
      ∀ s ∈ orelse, s.IsFlat := by
  obtain ⟨hn, hc⟩ := h
  simp only [walk, nested, List.forall_mem_cons, List.forall_mem_append] at hn hc
  exact ⟨hn.1, hn.2.1, isFlat_of_mem hn.2.2.1 hc.2.1, isFlat_of_mem hn.2.2.2 hc.2.2⟩

private theorem isFlat_block (h : ∀ s ∈ b, s.IsLaidFlat) : ∀ m ∈ layoutBlock b n, m.IsFlat := by
  induction b with
  | nil => exact List.forall_mem_nil _
  | cons s ss ih =>
    exact List.forall_mem_cons.2 ⟨trivial, List.forall_mem_append.2 ⟨h s List.mem_cons_self n,
      ih fun s hs => h s (List.mem_cons_of_mem _ hs)⟩⟩

/-- An `else` has the marks of its statements and words of its own. -/
theorem isFlat_else (chained : Bool) (h : ∀ s ∈ b, s.IsLaidFlat) :
    ∀ m ∈ layoutElse chained b n, m.IsFlat := by
  have words {w : String} (hw : '\n' ∉ w.toList) {ms : List Mark} (h : ∀ m ∈ ms, m.IsFlat) :
      ∀ m ∈ .lineBreak n :: .keyword w :: ms, m.IsFlat :=
    List.forall_mem_cons.2 ⟨trivial, List.forall_mem_cons.2 ⟨hw, h⟩⟩
  have hcolon : Mark.colon.IsFlat := show '\n' ∉ _ by decide
  have helse {s : Stmt} {ss : Block} (h : ∀ s' ∈ s :: ss, s'.IsLaidFlat) :
      ∀ m ∈ .lineBreak n :: .keyword "else" :: .colon :: layoutBlock (s :: ss) (n + blockIndent),
        m.IsFlat := words (by decide) (List.forall_mem_cons.2 ⟨hcolon, isFlat_block h⟩)
  unfold layoutElse
  split
  · exact List.forall_mem_nil _
  · rename_i p test body orelse
    split
    · have hif := h _ List.mem_cons_self n
      rw [layout] at hif
      exact words (by decide) (List.forall_mem_cons.1 hif).2
    · simpa [layoutBlock] using helse h
  · simpa [layoutBlock] using helse h

/-- The marks of a statement stand on one line each when its names and comments do. -/
theorem isLaidFlat_of_isFlat {s : Stmt} (h : s.IsFlat) : s.IsLaidFlat := by
  have expr {e : Expr} (h : ∀ x ∈ e.walk, x.IsFlat) : e.IsLaidFlat := Expr.isLaidFlat_of_isFlat h
  have hcolon : Mark.colon.IsFlat := show '\n' ∉ _ by decide
  have hblank : Mark.blank.IsFlat := show '\n' ∉ _ by decide
  have head {w : String} (hw : '\n' ∉ w.toList) {ms ms' : List Mark} (h : ∀ m ∈ ms, m.IsFlat)
      (h' : ∀ m ∈ ms', m.IsFlat) : ∀ m ∈ .keyword w :: .blank :: (ms ++ .colon :: ms'), m.IsFlat :=
    List.forall_mem_cons.2 ⟨hw, List.forall_mem_cons.2 ⟨hblank, List.forall_mem_append.2 ⟨h,
      List.forall_mem_cons.2 ⟨hcolon, h'⟩⟩⟩⟩
  have suite {body orelse : Block} (ihb : ∀ s ∈ body, s.IsFlat → s.IsLaidFlat)
      (iho : ∀ s ∈ orelse, s.IsFlat → s.IsLaidFlat) (hb : ∀ s ∈ body, s.IsFlat)
      (ho : ∀ s ∈ orelse, s.IsFlat) (chained : Bool) (n : Nat) :
      ∀ m ∈ layoutBlock body (n + blockIndent) ++ layoutElse chained orelse n, m.IsFlat :=
    List.forall_mem_append.2 ⟨isFlat_block fun s hs => ihb s hs (hb s hs),
      isFlat_else chained fun s hs => iho s hs (ho s hs)⟩
  intro n
  induction s using partsInduction generalizing n with
  | assign p targets value =>
    have hnames := h.names
    simp only [walk, List.forall_mem_append] at hnames
    rw [layout]
    refine List.forall_mem_append.2 ⟨fun m hm => ?_, expr hnames.2 n⟩
    obtain ⟨t, ht, hm⟩ := List.mem_flatMap.1 hm
    have htarget := expr (fun x hx => hnames.1 x (Expr.mem_walkList.2 ⟨t, ht, hx⟩)) n
    have hsign := Expr.isFlat_operation (show '\n' ∉ "=".toList by decide) (List.forall_mem_nil _)
    exact List.forall_mem_append.2 ⟨htarget, hsign⟩ m hm
  | update p target op value =>
    have hnames := h.names
    simp only [walk, List.forall_mem_append] at hnames
    have hop : '\n' ∉ (op.spelling ++ "=").toList := by cases op <;> decide
    rw [layout]
    exact List.forall_mem_append.2 ⟨expr hnames.1 n, Expr.isFlat_operation hop (expr hnames.2 n)⟩
  | ifElse p test body orelse ihb iho =>
    obtain ⟨ht, hb, ho⟩ := h.ifElse
    rw [layout]
    exact head (by decide) (expr ht n)
      (suite ihb iho hb ho true n)
  | forEach p target iter body orelse ihb iho =>
    obtain ⟨ht, hi, hb, ho⟩ := h.forEach
    have hsuite := suite ihb iho hb ho false n
    have hin := Expr.isFlat_operation (show '\n' ∉ "in".toList by decide) (expr hi n)
    rw [layout]
    have hall := head (w := "for") (by decide) (List.forall_mem_append.2 ⟨expr ht n, hin⟩) hsuite
    simpa using hall
  | whileDo p test body orelse ihb iho =>
    obtain ⟨ht, hb, ho⟩ := h.whileDo
    rw [layout]
    exact head (by decide) (expr ht n)
      (suite ihb iho hb ho false n)
  | expr p value =>
    rw [layout]
    cases hc : (Stmt.expr p value).comment? with
    | some text => exact List.forall_mem_singleton.2 (h.comments _ List.mem_cons_self text hc)
    | none => exact expr h.names n
  | pass p | breakOut p | nextRound p =>
    rw [layout]
    exact List.forall_mem_singleton.2 (show '\n' ∉ _ by decide)

end Stmt

/-- The comments of a block. -/
def Block.comments (b : Block) : List String := b.statements.filterMap Stmt.comment?

/-- Whether the names and comments of a block stand on one line each. -/
structure Block.IsFlat (b : Block) : Prop where
  names : ∀ x ∈ b.walk, x.IsFlat
  comments : ∀ t ∈ b.comments, '\n' ∉ t.toList

namespace Block

variable {b : Block}

/-- The statements of a flat block are flat. -/
theorem IsFlat.statements (h : b.IsFlat) : ∀ s ∈ b, s.IsFlat :=
  Stmt.isFlat_of_mem h.names fun x hx t ht => h.comments t (List.mem_filterMap.2 ⟨x, hx, ht⟩)

/-- The marks of a flat block are flat. -/
theorem IsFlat.layout (h : b.IsFlat) : ∀ m ∈ b.layout, m.IsFlat := by
  have hstmts := fun s hs => Stmt.isLaidFlat_of_isFlat (h.statements s hs)
  cases b with
  | nil => exact List.forall_mem_nil _
  | cons s ss =>
    exact List.forall_mem_append.2 ⟨hstmts s List.mem_cons_self 0,
      Stmt.isFlat_block fun s hs => hstmts s (List.mem_cons_of_mem _ hs)⟩

end Block

/-! ## Markup -/

namespace Markup

/-- A line of the markup of flat marks ends with the sign of a line break, or with the frame. -/
theorem sign_mem_of_mem_lines_go (s : Subject) {ms : List Mark} (h : ∀ m ∈ ms, m.IsFlat)
    (acc : List Char) :
    ∀ l ∈ Text.lines.go ((style s).text ms ++ ['#']) acc, '+' ∈ l ∨ '#' ∈ l := by
  induction ms generalizing acc with
  | nil =>
    have hlast : Text.lines.go ['#'] acc = [('#' :: acc).reverse] := rfl
    intro l hl
    rw [show (style s).text [] ++ ['#'] = ['#'] from rfl, hlast, List.mem_singleton] at hl
    exact .inr (by simp [hl])
  | cons m ms ih =>
    obtain ⟨hm, hms⟩ := List.forall_mem_cons.1 h
    have htext : (style s).text (m :: ms) ++ ['#'] = spell s m ++ ((style s).text ms ++ ['#']) :=
      List.append_assoc ..
    rw [htext]
    cases hb : m.isBreak with
    | false =>
      rw [Text.lines_go_append (notMem_newline hm hb)]
      exact ih hms _
    | true =>
      cases m with
      | lineBreak k =>
        have hpad : '\n' ∉ (List.replicate k "&nbsp;".toList).flatten :=
          notMem_flatten_replicate (by decide) k
        have hspell : spell s (.lineBreak k) =
            [' ', '+'] ++ '\n' :: (List.replicate k "&nbsp;".toList).flatten := rfl
        rw [hspell, List.append_assoc, List.cons_append (a := '\n'), Text.lines_go_line (by decide),
          Text.lines_go_append hpad]
        refine List.forall_mem_cons.2 ⟨.inl ?_, ih hms _⟩
        show '+' ∈ ('+' :: ' ' :: acc).reverse
        simp
      | _ => exact absurd hb nofun

/-- No line of the markup of a flat block has only characters of a word. -/
theorem sign_mem_of_mem_lines (s : Subject) {b : Block} (h : b.IsFlat) :
    ∀ l ∈ Text.lines (render s b), '+' ∈ l ∨ '#' ∈ l := by
  have hopening : render s b = "[vu]#".toList ++ ((style s).text b.layout ++ ['#']) := by
    simp [render, Style.document, style]
  rw [hopening, Text.lines, Text.lines_go_append (by decide)]
  exact sign_mem_of_mem_lines_go s h.layout _

end Markup

/-! ## Prose -/

/-- Whether a bullet is a line. -/
structure Bullet.IsFlat (b : Bullet) : Prop where
  depth : 0 < b.depth
  words : '\n' ∉ b.content.words.toList

/-- A note is a line when its text is. -/
theorem Bullet.IsFlat.note {text : String} (h : '\n' ∉ text.toList) {d : Nat} (hd : 0 < d) :
    Bullet.IsFlat ⟨d, .note text⟩ := ⟨hd, h⟩

namespace Prose

variable {s : Subject} {e : Expr} {es : List Expr} {p : Phrasing}

/-- What is flattened stands on one line, whatever it is. -/
theorem newline_notMem_flatten (t : List Char) : '\n' ∉ flatten t := by
  have hlines : ∀ l ∈ (Text.lines t).map Text.trim, '\n' ∉ l := by
    intro l hl
    obtain ⟨line, hline, rfl⟩ := List.mem_map.1 hl
    exact fun hm => (Text.infix_of_mem_lines hline).2 ((Text.trim_infix line).subset hm)
  unfold flatten
  generalize (Text.lines t).map Text.trim = ls at hlines
  induction ls with
  | nil => exact List.not_mem_nil
  | cons l ls ih =>
    obtain ⟨hl, hls⟩ := List.forall_mem_cons.1 hlines
    cases ls with
    | nil => simpa [Text.join, List.intercalate] using hl
    | cons l' ls =>
      rw [Text.join_cons (List.cons_ne_nil _ _)]
      simp [hl, ih hls]

private theorem newline_notMem_code (t : List Char) : '\n' ∉ (code t).toList := by
  simp [code, String.toList_append, newline_notMem_flatten]

private theorem newline_notMem_operand (s : Subject) (h : e.IsFlat) :
    '\n' ∉ (operand s e).toList := by
  unfold operand
  split
  next q id =>
    split
    · decide
    · have hid : '\n' ∉ id.toList := h
      have hlinked := Markup.newline_notMem_linked s hid
      cases hl : Markup.link? s id with
      | none => simp [String.toList_append, hid]
      | some link =>
        rw [hl] at hlinked
        exact hlinked
  next q n => exact newline_notMem_toString n
  next => exact newline_notMem_code _

private theorem newline_notMem_verb (v : Verb) (p : Phrasing) : '\n' ∉ (v.words p).toList := by
  obtain ⟨holds, must⟩ := p
  cases v <;> cases holds <;> cases must <;> decide

private theorem newline_notMem_relation (r : Relation) : '\n' ∉ r.words.toList := by
  cases r <;> decide

private theorem newline_notMem_predication (x : Predication) (p : Phrasing) :
    '\n' ∉ (x.words p).toList := by
  cases x with
  | related r =>
    simp [Predication.words, String.toList_append, newline_notMem_verb, newline_notMem_relation]
  | verb v => exact newline_notMem_verb v p

/-- Whether the pieces of a phrase stand on one line. -/
def PiecesFlat (ps : List Piece) : Prop := ∀ x ∈ ps, '\n' ∉ x.text.toList

/-- The words of flat pieces stand on one line. -/
theorem PiecesFlat.words {ps : List Piece} (h : PiecesFlat ps) :
    '\n' ∉ (Piece.words ps).toList := by
  induction ps with
  | nil => exact List.not_mem_nil
  | cons q qs ih =>
    obtain ⟨hq, hqs⟩ := List.forall_mem_cons.1 h
    simp [Piece.words, String.toList_append, hq, ih hqs]

private theorem newline_notMem_named (s : Subject) (h : e.IsFlat) :
    '\n' ∉ (named s e).text.toList :=
  newline_notMem_operand s h

/-- A phrase is one line when its pieces are. -/
theorem newline_notMem_words {x : Phrase} (hs : PiecesFlat x.subject)
    (hb : PiecesFlat x.saying.behind) : '\n' ∉ x.words.toList := by
  have hblank : '\n' ∉ " ".toList := by decide
  simp only [Phrase.words, Saying.words, String.toList_append, List.mem_append, not_or]
  exact ⟨⟨hs.words, hblank⟩, newline_notMem_predication _ _, hb.words⟩

/-- So is the phrase of a verb. -/
theorem newline_notMem_saying {subject behind : List Piece} (hs : PiecesFlat subject)
    (hb : PiecesFlat behind) (v : Verb) (p : Phrasing) :
    ∀ x ∈ saying subject v behind p, '\n' ∉ x.words.toList := by
  intro x hx
  obtain rfl := Option.some.inj hx
  exact newline_notMem_words hs hb

private theorem newline_notMem_callPhrase (s : Subject) (q : Predicate) (h : ∀ e ∈ es, e.IsFlat) :
    ∀ x ∈ callPhrase? s q es p, '\n' ∉ x.words.toList := by
  unfold callPhrase?
  split
  next r id =>
    have hid : '\n' ∉ id.toList := h _ List.mem_cons_self
    refine newline_notMem_saying ?_ ?_ _ _
    · simp [PiecesFlat, String.toList_append, hid]
    · simp [PiecesFlat]
  next r id =>
    have hid : '\n' ∉ id.toList := h _ List.mem_cons_self
    refine newline_notMem_saying ?_ ?_ _ _
    · simp [PiecesFlat, Markup.featureLink, Markup.reference, String.toList_append, hid]
    · simp [PiecesFlat]
  next r major r' minor =>
    refine newline_notMem_saying (by simp [PiecesFlat]) ?_ _ _
    have hmajor := newline_notMem_named s (h _ List.mem_cons_self)
    have hminor := newline_notMem_named s (h _ (List.mem_cons_of_mem _ List.mem_cons_self))
    simp [PiecesFlat, hmajor, hminor]
  next e =>
    have he := newline_notMem_named s (h _ List.mem_cons_self)
    refine newline_notMem_saying (by simp [PiecesFlat]) ?_ _ _
    simp [PiecesFlat, he]
  next e =>
    have he := newline_notMem_named s (h _ List.mem_cons_self)
    exact newline_notMem_saying (by simpa [PiecesFlat] using he)
      (by simp [PiecesFlat]) _ _
  next => rintro _ ⟨⟩

private theorem newline_notMem_methodPhrase (s : Subject) (m : Method) (he : e.IsFlat)
    (h : ∀ e ∈ es, e.IsFlat) : ∀ x ∈ methodPhrase? s e m es p, '\n' ∉ x.words.toList := by
  have hnamed := newline_notMem_named s he
  have hreceiver : PiecesFlat [named s e] := by simpa [PiecesFlat] using hnamed
  unfold methodPhrase?
  split
  next => exact newline_notMem_saying hreceiver (by simp [PiecesFlat]) _ _
  next e =>
    have he := newline_notMem_named s (h _ List.mem_cons_self)
    exact newline_notMem_saying hreceiver (by simp [PiecesFlat, he]) _ _
  next e =>
    have he := newline_notMem_named s (h _ List.mem_cons_self)
    exact newline_notMem_saying (by simp [PiecesFlat, hnamed])
      (by simp [PiecesFlat, he]) _ _
  next => exact newline_notMem_saying hreceiver (by simp [PiecesFlat]) _ _
  next => exact newline_notMem_saying hreceiver (by simp [PiecesFlat]) _ _
  next => exact nofun

private theorem newline_notMem_knownPhrase (s : Subject) (p : Phrasing)
    (h : ∀ x ∈ e.walk, x.IsFlat) :
    ∀ x ∈ knownPhrase? s p e, '\n' ∉ x.words.toList := by
  intro x hx
  unfold knownPhrase? at hx
  split at hx
  next q left op right =>
    have hleft := newline_notMem_named s (h left (by simp [Expr.walk, Expr.self_mem_walk]))
    have hsubject : PiecesFlat [named s left] := by simpa [PiecesFlat] using hleft
    split at hx
    · obtain ⟨said, hsaid, hx⟩ := Option.bind_eq_some_iff.1 hx
      obtain rfl := Option.some.inj hx
      obtain ⟨isNull, -, rfl⟩ := Option.map_eq_some_iff.1 hsaid
      exact newline_notMem_words hsubject (by simp [PiecesFlat, Phrasing.quotedNull])
    · obtain ⟨said, -, hx⟩ := Option.bind_eq_some_iff.1 hx
      obtain rfl := Option.some.inj hx
      have hright := newline_notMem_named s
        (h right (by simp [Expr.walk, Expr.walkList, Expr.self_mem_walk]))
      exact newline_notMem_words hsubject (by simp [PiecesFlat, hright])
  next q r id args =>
    obtain ⟨pred, -, hx⟩ := Option.bind_eq_some_iff.1 hx
    refine newline_notMem_callPhrase s pred (fun a ha => h a ?_) x hx
    simp only [Expr.walk, List.mem_cons, List.mem_append]
    exact .inr (.inr (Expr.mem_walkList.2 ⟨a, ha, Expr.self_mem_walk a⟩))
  next q r receiver attr args =>
    obtain ⟨m, -, hx⟩ := Option.bind_eq_some_iff.1 hx
    refine newline_notMem_methodPhrase s m (h receiver ?_) (fun a ha => h a ?_) x hx
    · simp [Expr.walk, Expr.self_mem_walk]
    · simp only [Expr.walk, List.mem_cons, List.mem_append]
      exact .inr (.inr (Expr.mem_walkList.2 ⟨a, ha, Expr.self_mem_walk a⟩))
  next => cases hx

private theorem newline_notMem_phrase (s : Subject) (p : Phrasing) (h : ∀ x ∈ e.walk, x.IsFlat) :
    '\n' ∉ (phrase s p e).words.toList := by
  have hself := newline_notMem_named s (h e (Expr.self_mem_walk e))
  unfold phrase
  cases hk : knownPhrase? s p e with
  | none => exact newline_notMem_words (by simpa [PiecesFlat] using hself) nofun
  | some x => exact newline_notMem_knownPhrase s p h x hk

private theorem newline_notMem_quantifier (p : Phrasing) (op : BoolOp) :
    '\n' ∉ (p.quantifier op).toList := by
  obtain ⟨expectTrue, must⟩ := p
  cases expectTrue <;> cases must <;> cases op <;> decide +kernel

/-- The bullets of a condition are lines when the names in it stand on one line each. -/
theorem isFlat_condition (s : Subject) (h : ∀ x ∈ e.walk, x.IsFlat) (d : Nat) (hd : 0 < d)
    (p : Phrasing) : ∀ b ∈ condition s e d p, b.IsFlat := by
  have list {es : List Expr}
      (ih : ∀ e ∈ es, (∀ x ∈ e.walk, x.IsFlat) →
        ∀ d, 0 < d → ∀ p, ∀ b ∈ condition s e d p, b.IsFlat)
      (h : ∀ x ∈ Expr.walkList es, x.IsFlat) (d : Nat) (hd : 0 < d) (p : Phrasing) :
      ∀ b ∈ conditions s es d p, b.IsFlat := by
    induction es with
    | nil => exact List.forall_mem_nil _
    | cons e es ihs =>
      obtain ⟨he, hes⟩ := List.forall_mem_append.1 h
      exact List.forall_mem_append.2 ⟨ih e List.mem_cons_self he d hd p,
        ihs (fun e he => ih e (List.mem_cons_of_mem _ he)) hes⟩
  have fact {e : Expr} (h : ∀ x ∈ e.walk, x.IsFlat) (d : Nat) (hd : 0 < d) (p : Phrasing) :
      ∀ b ∈ [(⟨d, .fact e (phrase s p e)⟩ : Bullet)], b.IsFlat :=
    List.forall_mem_singleton.2 ⟨hd, newline_notMem_phrase s p h⟩
  induction e using Expr.partsInduction generalizing d p with
  | boolOp q op values ih =>
    have hvalues := (List.forall_mem_cons.1 h).2
    refine List.forall_mem_cons.2 ⟨⟨hd, ?_⟩, list ih hvalues _ (Nat.succ_pos d) _⟩
    simp [BulletContent.words, newline_notMem_quantifier]
  | unary q op operand ih =>
    by_cases hop : op = .not
    · subst hop
      exact ih (List.forall_mem_cons.1 h).2 d hd _
    · rw [condition]
      · exact fact h d hd p
      · rintro _ _ he
        cases he
        exact hop rfl
      · exact nofun
  | _ => exact fact h d hd p

private theorem isFlat_conditions (s : Subject) (h : ∀ x ∈ Expr.walkList es, x.IsFlat) (d : Nat)
    (hd : 0 < d) (p : Phrasing) : ∀ b ∈ conditions s es d p, b.IsFlat := by
  induction es with
  | nil => exact List.forall_mem_nil _
  | cons e es ih =>
    obtain ⟨he, hes⟩ := List.forall_mem_append.1 h
    exact List.forall_mem_append.2 ⟨isFlat_condition s he d hd p, ih hes⟩

private theorem peelNot_mem_walk (e : Expr) (expected : Bool) :
    (peelNot e expected).1 ∈ e.walk := by
  induction e using Expr.partsInduction generalizing expected with
  | unary q op operand ih =>
    by_cases hop : op = .not
    · subst hop
      exact List.mem_cons_of_mem _ (ih _)
    · rw [peelNot]
      · exact Expr.self_mem_walk _
      · rintro _ _ he
        cases he
        exact hop rfl
  | _ => exact Expr.self_mem_walk _

private theorem isFlat_test (s : Subject) (h : ∀ x ∈ e.walk, x.IsFlat) (d : Nat) (hd : 0 < d) :
    ∀ b ∈ test s e d, b.IsFlat := by
  have hpeeled : ∀ x ∈ (peelNot e true).1.walk, x.IsFlat := fun x hx =>
    h x (Expr.walk_subset_of_mem_walk (peelNot_mem_walk e true) hx)
  unfold test
  split
  next q op values expected he =>
    rw [he] at hpeeled
    have hvalues := (List.forall_mem_cons.1 hpeeled).2
    refine List.forall_mem_cons.2 ⟨⟨hd, ?_⟩, isFlat_conditions s hvalues _ (Nat.succ_pos d) _⟩
    simp [BulletContent.words, String.toList_append, newline_notMem_quantifier]
  next e' expected _ he =>
    rw [he] at hpeeled
    refine List.forall_mem_cons.2 ⟨.note ?_ hd, isFlat_condition s hpeeled _ (Nat.succ_pos d) _⟩
    cases expected <;> decide

/-- The bullets of a statement are lines when its names and comments stand on one line each. -/
theorem isFlat_statement (s : Subject) {x : Stmt} (h : x.IsFlat) (d : Nat) (hd : 0 < d) :
    ∀ b ∈ statement s x d, b.IsFlat := by
  have self {e : Expr} (h : ∀ x ∈ e.walk, x.IsFlat) :=
    newline_notMem_operand s (h e e.self_mem_walk)
  have code (y : Stmt) (d : Nat) (hd : 0 < d) :
      ∀ b ∈ [(⟨d, .note (code y.source)⟩ : Bullet)], b.IsFlat :=
    List.forall_mem_singleton.2 ⟨hd, newline_notMem_code _⟩
  have block {b : Block} (ih : ∀ y ∈ b, y.IsFlat → ∀ d, 0 < d → ∀ b ∈ statement s y d, b.IsFlat)
      (h : ∀ y ∈ b, y.IsFlat) (d : Nat) : ∀ b' ∈ statements s b (d + 1), b'.IsFlat := by
    induction b with
    | nil => exact List.forall_mem_nil _
    | cons y ys ihs =>
      exact List.forall_mem_append.2 ⟨ih y List.mem_cons_self (h y List.mem_cons_self) _
        (Nat.succ_pos d), ihs (fun y hy => ih y (List.mem_cons_of_mem _ hy))
          fun y hy => h y (List.mem_cons_of_mem _ hy)⟩
  induction x using Stmt.partsInduction generalizing d with
  | assign q targets value =>
    have hnames := h.names
    simp only [Stmt.walk, List.forall_mem_append] at hnames
    match targets, hnames with
    | [], _ => exact code _ d hd
    | [target], hnames =>
      have htarget := self (e := target) fun x hx =>
        hnames.1 x (Expr.mem_walkList.2 ⟨target, List.mem_cons_self, hx⟩)
      refine List.forall_mem_singleton.2 (.note ?_ hd)
      simp [String.toList_append, htarget, self hnames.2]
    | _ :: _ :: _, _ => exact code _ d hd
  | ifElse q test body orelse ihb iho =>
    obtain ⟨ht, hb, ho⟩ := h.ifElse
    rw [statement]
    refine List.forall_mem_append.2 ⟨isFlat_test s ht d hd, List.forall_mem_cons.2
      ⟨.note (by decide) hd, List.forall_mem_append.2 ⟨block ihb hb d, ?_⟩⟩⟩
    split
    · exact List.forall_mem_nil _
    · exact List.forall_mem_cons.2 ⟨.note (by decide) hd, block iho ho d⟩
  | forEach q target iter body orelse ihb iho =>
    obtain ⟨ht, hi, hb, -⟩ := h.forEach
    refine List.forall_mem_cons.2 ⟨.note ?_ hd, block ihb hb d⟩
    simp [String.toList_append, self ht, self hi]
  | expr q value =>
    rw [statement]
    split
    · rename_i text hc
      have htext := h.comments _ List.mem_cons_self text hc
      exact List.forall_mem_singleton.2 (.note (by simp [String.toList_append, htext]) hd)
    · split
      · rename_i e he
        refine isFlat_condition s (fun x hx => h.names x ?_) d hd _
        unfold required? at he
        split at he
        · split at he
          · obtain rfl := Option.some.inj he
            simp [Stmt.walk, Expr.walk, Expr.walkList, hx]
          · exact absurd he nofun
        · exact absurd he nofun
      · exact List.forall_mem_singleton.2 (.note (self h.names) hd)
  | _ => exact code _ d hd

private theorem isFlat_statements (s : Subject) {b : Block} (h : ∀ x ∈ b, x.IsFlat) (d : Nat)
    (hd : 0 < d) :
    ∀ x ∈ statements s b d, x.IsFlat := by
  induction b with
  | nil => exact List.forall_mem_nil _
  | cons x xs ih =>
    exact List.forall_mem_append.2 ⟨isFlat_statement s (h x List.mem_cons_self) d hd,
      ih fun y hy => h y (List.mem_cons_of_mem _ hy)⟩

/-- No line of the prose of a flat block has only characters of a word. -/
theorem star_mem_of_mem_lines (s : Subject) {b : Block} (h : b.IsFlat) :
    ∀ l ∈ Text.lines (render s b), l = [] ∨ '*' ∈ l := by
  intro l hl
  have hbullets := isFlat_statements s h.statements 1 Nat.one_pos
  have hlines : ∀ u ∈ (statements s b 1).map Bullet.line, '\n' ∉ u ∧ u.head? = some '*' := by
    intro u hu
    obtain ⟨x, hx, rfl⟩ := List.mem_map.1 hu
    obtain ⟨⟨d, hd⟩, hwords⟩ : (∃ d, x.depth = d + 1) ∧ '\n' ∉ x.content.words.toList :=
      ⟨Nat.exists_eq_succ_of_ne_zero (Nat.pos_iff_ne_zero.1 (hbullets x hx).depth),
        (hbullets x hx).words⟩
    rw [Bullet.line, hd, List.replicate_succ]
    exact ⟨by simp [hwords], rfl⟩
  obtain ⟨u, hu, hprefix⟩ := Text.prefix_of_mem_lines_join (fun u hu => (hlines u hu).1) l hl
  cases l with
  | nil => exact .inl rfl
  | cons c l =>
    obtain ⟨t, rfl⟩ := hprefix
    obtain rfl : c = '*' := Option.some.inj (hlines _ hu).2
    exact .inr List.mem_cons_self

end Prose
end ValidUsage
