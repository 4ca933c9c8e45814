import ValidUsage.Proofs.LiteralText
import ValidUsage.Proofs.Spelled

/-!
# Legible marks

Marks are legible where each can be told from what follows it: a word ends before anything but a
letter, a number also before anything but a point, an operator before a blank. They also have to be
balanced, with ends of lines inside of brackets only. The layout of an expression that can be
written is legible in front of any delimiter; reading it then is a matter of one mark after the
other.
-/

namespace ValidUsage

/-- The spelling of a mark in source text whose comments are kept as calls. -/
def Mark.kept : Mark → List Char
  | .comment t =>
    commentName.toList ++ (['(', '"'] ++ Paragraph.quoteComment t.toList ++ ['"', ')'])
  | m => m.source

/-- The style of source text whose comments are kept as calls. -/
def Style.kept : Style := ⟨"", "", Mark.kept⟩

@[simp] theorem Style.kept_text_nil : Style.kept.text [] = [] := rfl

@[simp] theorem Style.kept_text_cons (m : Mark) (ms : List Mark) :
    Style.kept.text (m :: ms) = m.kept ++ Style.kept.text ms := rfl

/-- Whether a text is a word: a name or a reserved word. -/
def IsWord (t : String) : Prop :=
  ∃ c cs, t.toList = c :: cs ∧ Text.isNameStart c = true ∧ ∀ x ∈ cs, Text.isNameChar x = true

instance (t : String) : Decidable (IsWord t) :=
  decidable_of_iff
    ((t.toList.head?.any Text.isNameStart && t.toList.tail.all Text.isNameChar) = true)
    (by unfold IsWord; cases t.toList <;> simp [and_assoc])

/-- A name is a word. -/
theorem IsWord.of_isIdentifier {id : String} (h : isIdentifier id = true) : IsWord id := by
  obtain ⟨c, cs, he, hc, hcs, -⟩ := isIdentifier_iff.1 h
  exact ⟨c, cs, he, hc, hcs⟩

/-- A word starts as names do. -/
theorem IsWord.head {t : String} (h : IsWord t) :
    t.toList.head?.any Text.isNameStart = true := by
  obtain ⟨c, cs, he, hc, -⟩ := h
  simpa [he] using hc

/-- A word by its characters, which are checked one by one. -/
theorem IsWord.of_toList {t : String} (c : Char) (cs : List Char) (ht : t.toList = c :: cs)
    (h : (Text.isNameStart c && cs.all Text.isNameChar) = true) : IsWord t := by
  simp only [Bool.and_eq_true, List.all_eq_true] at h
  exact ⟨c, cs, ht, h.1, h.2⟩

/-- A word is not empty. -/
theorem IsWord.ne_nil {t : String} (h : IsWord t) : t.toList ≠ [] := by
  obtain ⟨c, cs, he, -⟩ := h
  simp [he]

/-- A word has only characters of names. -/
theorem IsWord.isNameChar {t : String} (h : IsWord t) :
    ∀ c ∈ t.toList, Text.isNameChar c = true := by
  obtain ⟨c, cs, he, hc, hcs⟩ := h
  rw [he]
  exact List.forall_mem_cons.2 ⟨isNameChar_of_isNameStart hc, hcs⟩

/-- A character that names do not have is in no word. -/
theorem IsWord.notMem {t : String} (h : IsWord t) {c : Char} (hc : Text.isNameChar c = false) :
    c ∉ t.toList := fun hm => absurd ((h.isNameChar c hm).symm.trans hc) (by decide)

namespace Mark

/-- The operators that stand directly before their operand. -/
def signs : List String := ["~", "+", "-"]

/-- The operators that stand before a blank, those of assignments included. -/
def infixes : List String :=
  ["not", "and", "or", "+", "-", "*", "/", "//", "%", "**", "@", "<<", ">>", "|", "^", "&",
   "==", "!=", "<", "<=", ">", ">=", "is", "is not", "in", "not in",
   "=", "+=", "-=", "*=", "/=", "//=", "%=", "**=", "@=", "<<=", ">>=", "|=", "^=", "&="]

/-- Whether a mark is one that the layout of a line uses. -/
def IsSound : Mark → Prop
  | plain t => t ∈ [" ", ", ", ":", ".", ","] ∨ IsWord t
  | keyword t | name t | feature t | predicate t => IsWord t
  | operator t => t ∈ signs ∨ t ∈ infixes
  | number t => IsNumeral t
  | literal t => IsWord t ∨ ∃ s, t = Literal.quote s
  | comment _ => False
  | openParen | closeParen | openBracket | closeBracket | lineBreak _ => True

/-- A plain mark that is sound is not empty. -/
theorem plain_ne_nil {t : String} (h : (plain t).IsSound) : t.toList ≠ [] := by
  rcases h with h | h
  · have hall : ∀ t ∈ [" ", ", ", ":", ".", ","], t.toList ≠ [] := by decide
    exact hall t h
  · exact h.ne_nil

/-- Nor is an operator. -/
theorem operator_ne_nil {t : String} (h : (operator t).IsSound) : t.toList ≠ [] := by
  have hall : ∀ t ∈ signs ++ infixes, t.toList ≠ [] := by decide +kernel
  exact hall t (List.mem_append.2 h)

/-- Whether a mark can be told from what follows it when a character starts that. -/
def endsBefore (c : Char) : Mark → Bool
  | plain t =>
    if t.toList.head?.any Text.isNameStart then !Text.isNameChar c
    else (t != ":" || c != '=') && (t != "." || !c.isDigit)
  | keyword _ | name _ | feature _ | predicate _ | literal _ => !Text.isNameChar c
  | operator t => c == ' ' || c == '\n' || (signs.contains t && c != '=' && c != '>')
  | number _ => endsNumber c
  | comment _ | openParen | closeParen | openBracket | closeBracket | lineBreak _ => true

private theorem endsBefore_blank (c : Char) : blank.endsBefore c = true := by
  simp [endsBefore, blank, Text.isNameStart, isAlpha_eq]

private theorem endsBefore_comma (c : Char) : comma.endsBefore c = true := by
  simp [endsBefore, comma, Text.isNameStart, isAlpha_eq]

/-- Whether a mark stands inside of brackets only. -/
def isInner : Mark → Bool
  | closeParen | closeBracket | lineBreak _ => true
  | _ => false

/-- The number of open brackets after a mark. -/
def depthAfter (depth : Nat) : Mark → Nat
  | openParen | openBracket => depth + 1
  | closeParen | closeBracket => depth - 1
  | _ => depth

end Mark

/-- Whether marks can be read one by one in front of a text, where the number of open brackets is
`depth` before and `depth'` after them. -/
def Legible (depth : Nat) (ms : List Mark) (depth' : Nat) (r : List Char) : Prop :=
  match ms with
  | [] => depth = depth'
  | m :: ms =>
    m.IsSound ∧ (∀ c ∈ (Style.kept.text ms ++ r).head?, m.endsBefore c = true) ∧
      (m.isInner = true → 0 < depth) ∧ Legible (m.depthAfter depth) ms depth' r

namespace Legible

/-- No marks are legible in front of anything. -/
theorem nil (d : Nat) (r : List Char) : Legible d [] d r := rfl

/-- Marks are legible one after the other. -/
theorem append {ms ms' : List Mark} {d d' d'' : Nat} {r : List Char}
    (h : Legible d ms d' (Style.kept.text ms' ++ r)) (h' : Legible d' ms' d'' r) :
    Legible d (ms ++ ms') d'' r := by
  induction ms generalizing d with
  | nil => exact (show d = d' from h) ▸ h'
  | cons m ms ih =>
    obtain ⟨hs, he, hi, h⟩ := h
    refine ⟨hs, ?_, hi, ih h⟩
    show ∀ c ∈ (Style.kept.text (ms ++ ms') ++ r).head?, m.endsBefore c = true
    rw [Style.text_append, List.append_assoc]
    exact he

/-- A mark in front of legible ones is legible if it is sound and ends where they start. -/
theorem cons {m : Mark} {ms : List Mark} {d d' : Nat} {r : List Char} (hs : m.IsSound)
    (he : ∀ c ∈ (Style.kept.text ms ++ r).head?, m.endsBefore c = true) (hm : m.isInner = false)
    (h : Legible (m.depthAfter d) ms d' r) : Legible d (m :: ms) d' r :=
  ⟨hs, he, fun hi => absurd hi (by simp [hm]), h⟩

end Legible

/-- Whether a character delimits expressions. -/
def isDelimiter (c : Char) : Bool := [' ', ')', ']', '(', '[', ',', ':', '\n'].contains c

/-- Whether a text is empty or starts with a delimiter. -/
def Delimited (r : List Char) : Prop := ∀ c ∈ r.head?, isDelimiter c = true

/-- Whether a text is empty, or starts with a delimiter or, if `point`, with a point. -/
def DelimitedOr (point : Bool) (r : List Char) : Prop :=
  ∀ c ∈ r.head?, isDelimiter c = true ∨ (point = true ∧ c = '.')

/-- A text that starts with a delimiter is delimited. -/
theorem Delimited.cons {c : Char} {r : List Char} (h : isDelimiter c = true) :
    Delimited (c :: r) := by
  rintro c' hc
  obtain rfl : c = c' := by simpa using hc
  exact h

/-- What is delimited is so with a point allowed as well. -/
theorem Delimited.or {r : List Char} (h : Delimited r) (point : Bool) : DelimitedOr point r :=
  fun c hc => .inl (h c hc)

private theorem not_isNameChar_of_isDelimiter {c : Char} (h : isDelimiter c = true) :
    Text.isNameChar c = false := by
  simp only [isDelimiter, List.contains_eq_mem, List.mem_cons, List.not_mem_nil, or_false,
    decide_eq_true_eq] at h
  rcases h with rfl | rfl | rfl | rfl | rfl | rfl | rfl | rfl <;> decide

private theorem endsNumber_of_isDelimiter {c : Char} (h : isDelimiter c = true) :
    endsNumber c = true := by
  simp only [isDelimiter, List.contains_eq_mem, List.mem_cons, List.not_mem_nil, or_false,
    decide_eq_true_eq] at h
  rcases h with rfl | rfl | rfl | rfl | rfl | rfl | rfl | rfl <;> decide

private theorem DelimitedOr.not_isNameChar {point : Bool} {r : List Char} (h : DelimitedOr point r)
    {c : Char} (hc : c ∈ r.head?) : Text.isNameChar c = false := by
  rcases h c hc with h | ⟨-, rfl⟩
  · exact not_isNameChar_of_isDelimiter h
  · decide

/-- Whether a layout is legible in front of every delimiter, and of a point if `point`. -/
def Inline (point : Bool) (layout : Nat → List Mark) : Prop :=
  ∀ (n d : Nat) (r : List Char), DelimitedOr point r → Legible d (layout n) d r

/-- Whether the text of marks can stand directly behind a sign or a colon, and starts no comment. -/
def Starts (ms : List Mark) : Prop :=
  ∃ c cs, Style.kept.text ms = c :: cs ∧ c ≠ '=' ∧ c ≠ '>' ∧ c ≠ '#' ∧ Text.isBlank c = false

/-- Such marks do not turn a sign in front of them into another one. -/
theorem Starts.head {ms : List Mark} (h : Starts ms) {r : List Char} :
    ∀ c ∈ (Style.kept.text ms ++ r).head?, c ≠ '=' ∧ c ≠ '>' := by
  obtain ⟨c, cs, he, h₁, h₂, -⟩ := h
  rw [he]
  rintro c' hc
  obtain rfl : c = c' := by simpa using hc
  exact ⟨h₁, h₂⟩

/-- Whether marks can stand behind a sign does not depend on those behind them. -/
theorem Starts.append {ms : List Mark} (h : Starts ms) (ms' : List Mark) : Starts (ms ++ ms') := by
  obtain ⟨c, cs, he, hc⟩ := h
  exact ⟨c, cs ++ Style.kept.text ms', by rw [Style.text_append, he, List.cons_append], hc⟩

private theorem Starts.of_text {ms : List Mark} (c : Char) (h : ∃ cs, Style.kept.text ms = c :: cs)
    (hc : c ≠ '=' ∧ c ≠ '>' ∧ c ≠ '#' ∧ Text.isBlank c = false) : Starts ms := by
  obtain ⟨cs, he⟩ := h
  exact ⟨c, cs, he, hc⟩

private theorem Starts.of_isNameChar {ms : List Mark} {c : Char} (hc : Text.isNameChar c = true)
    {s : List Char} (h : Style.kept.text ms = c :: s) : Starts ms := by
  refine ⟨c, s, h, ?_, ?_, ?_, isBlank_of_isNameChar hc⟩
  all_goals
    rintro rfl
    exact absurd hc (by decide)

/-- A word can stand behind a sign. -/
theorem Starts.of_isWord {m : Mark} {t : String} (hm : m.kept = t.toList) (ht : IsWord t)
    (ms : List Mark) : Starts (m :: ms) := by
  obtain ⟨c, cs, he, hc, -⟩ := ht
  refine Starts.of_isNameChar (s := cs ++ Style.kept.text ms) (isNameChar_of_isNameStart hc) ?_
  rw [Style.kept_text_cons, hm, he, List.cons_append]

namespace Expr

private theorem starts_wrapped {e : Expr} (h : ∀ n, Starts (e.layout n)) (w : Bool) (n : Nat) :
    Starts (wrapped w n e.layout) := by
  cases w with
  | false => exact h n
  | true => exact ⟨'(', _, rfl, by decide⟩

private theorem inline_wrapped {l : Nat → List Mark} {p : Bool} (h : Inline p l) (w : Bool) :
    Inline (w || p) fun n => wrapped w n l := by
  intro n d r hr
  cases w with
  | false => exact h n d r hr
  | true =>
    refine .cons trivial (by simp [Mark.endsBefore]) rfl (.append (h _ _ _ ?_) ?_)
    · exact Delimited.or (by simp [Delimited, Mark.kept, Mark.source, isDelimiter]) p
    · exact ⟨trivial, by simp [Mark.endsBefore], fun _ => Nat.succ_pos d, .nil d r⟩

variable {fractions : Binary64 → Bool}


/-- An operator with blanks around it is legible in front of legible marks. -/
theorem legible_infix {op : String} (hop : op ∈ Mark.infixes) {ms : List Mark} {d d' : Nat}
    {r : List Char} (h : Legible d ms d' r) :
    Legible d (.blank :: .operator op :: .blank :: ms) d' r := by
  refine .cons (.inl (by simp)) ?_ rfl (.cons (.inr hop) ?_ rfl (.cons (.inl (by simp)) ?_ rfl h))
  · exact fun c _ => Mark.endsBefore_blank c
  · simp [Mark.endsBefore, Mark.blank, Mark.kept, Mark.source]
  · exact fun c _ => Mark.endsBefore_blank c

/-- So is a reserved word with a blank behind it. -/
theorem legible_head {w : String} (hw : IsWord w) {ms : List Mark} {d d' : Nat} {r : List Char}
    (h : Legible d ms d' r) : Legible d (.keyword w :: .blank :: ms) d' r := by
  refine .cons hw ?_ rfl (.cons (.inl (by simp)) (fun c _ => Mark.endsBefore_blank c) rfl h)
  simp only [Style.kept_text_cons, Mark.blank, Mark.kept, Mark.source]
  rintro c hc
  obtain rfl : ' ' = c := by simpa using hc
  simp [Mark.endsBefore, Text.isNameChar, Char.isAlphanum, isAlpha_eq, Char.isDigit]

private theorem legible_keyword {w : String} (hw : IsWord w) {ms : List Mark} {d d' : Nat}
    {r : List Char}
    (h : Legible d ms d' r) : Legible d (.blank :: .keyword w :: .blank :: ms) d' r :=
  .cons (.inl (by simp)) (fun c _ => Mark.endsBefore_blank c) rfl (legible_head hw h)

/-- What starts with a blank is delimited. -/
theorem delimited_blank (ms : List Mark) (r : List Char) :
    Delimited (Style.kept.text (.blank :: ms) ++ r) :=
  .cons (by decide)

private theorem legible_close {m : Mark} (hm : m = .closeParen ∨ m = .closeBracket) {d : Nat}
    {r : List Char} : Legible (d + 1) [m] d r := by
  rcases hm with rfl | rfl
  · exact ⟨trivial, fun _ _ => rfl, fun _ => Nat.succ_pos d, .nil d r⟩
  · exact ⟨trivial, fun _ _ => rfl, fun _ => Nat.succ_pos d, .nil d r⟩

private theorem legible_word {m : Mark} {t : String}
    (hm : m = .name t ∨ m = .predicate t ∨ m = .plain t)
    (ht : IsWord t) {ms : List Mark} {d d' : Nat} {r : List Char}
    (hr : ∀ c ∈ (Style.kept.text ms ++ r).head?, Text.isNameChar c = false)
    (h : Legible d ms d' r) : Legible d (m :: ms) d' r := by
  rcases hm with rfl | rfl | rfl
  · exact .cons ht (fun c hc => by simp [Mark.endsBefore, hr c hc]) rfl h
  · exact .cons ht (fun c hc => by simp [Mark.endsBefore, hr c hc]) rfl h
  · refine .cons (.inr ht) (fun c hc => ?_) rfl h
    rw [Mark.endsBefore, if_pos ht.head, hr c hc, Bool.not_false]

private theorem mark_isSound (hf : ∀ x, fractions x = true → x.IsWritten) {v : Constant}
    (h : v.isWritable fractions = true) : v.mark.IsSound := by
  cases v with
  | bool b => cases b <;> exact .inl (.of_toList _ _ rfl (by decide))
  | int n => exact isNumeral_toString n
  | float x => exact (hf x h).numeral
  | str s => exact .inr ⟨s, rfl⟩
  | none => exact .inl (.of_toList _ _ rfl (by decide))

/-- A literal is laid out as a number, or as a word or a text. -/
theorem mark_cases (v : Constant) : (∃ t, v.mark = .number t) ∨ ∃ t, v.mark = .literal t := by
  cases v with
  | bool b => cases b <;> exact .inr ⟨_, rfl⟩
  | int n => exact .inl ⟨_, rfl⟩
  | float x => exact .inl ⟨_, rfl⟩
  | str s => exact .inr ⟨_, rfl⟩
  | none => exact .inr ⟨_, rfl⟩

private theorem inline_const (hf : ∀ x, fractions x = true → x.IsWritten) (p : Pos) {v : Constant}
    (h : v.isWritable fractions = true) : Inline false (const p v).layout := by
  intro n d r hr
  have hd : ∀ c ∈ r.head?, isDelimiter c = true := fun c hc => by simpa using hr c hc
  have hs := mark_isSound hf h
  rw [layout]
  rcases mark_cases v with ⟨t, ht⟩ | ⟨t, ht⟩
  · rw [ht] at hs ⊢
    exact .cons hs (fun c hc => endsNumber_of_isDelimiter (hd c hc)) rfl (.nil d r)
  · rw [ht] at hs ⊢
    refine .cons hs (fun c hc => ?_) rfl (.nil d r)
    rw [Mark.endsBefore, not_isNameChar_of_isDelimiter (hd c hc), Bool.not_false]

private theorem inline_operands (op : BoolOp) {es : List Expr}
    (h : ∀ e ∈ es, Inline (!e.wrapsReceiver) e.layout) {n d : Nat} {r : List Char}
    (hr : Delimited r) : Legible (d + 1) (operands op es n) (d + 1) r := by
  induction es with
  | nil => exact .nil _ r
  | cons e es ih =>
    have he := inline_wrapped (h e List.mem_cons_self) e.isChoice
    cases es with
    | nil => exact he n _ r (hr.or _)
    | cons e' es =>
      have hop : op.spelling ∈ Mark.infixes := by cases op <;> decide
      refine .append (he n _ _ ((delimited_blank _ r).or _)) ?_
      refine .cons (.inl (by simp)) (fun c _ => Mark.endsBefore_blank c) rfl ?_
      refine .cons (.inr hop) ?_ rfl ?_
      · simp [Mark.endsBefore, Mark.kept, Mark.source]
      · exact ⟨trivial, fun _ _ => rfl, fun _ => Nat.succ_pos d,
          ih fun e he => h e (List.mem_cons_of_mem _ he)⟩

private theorem inline_boolOp (p : Pos) (op : BoolOp) {values : List Expr}
    (h : ∀ e ∈ values, Inline (!e.wrapsReceiver) e.layout) :
    Inline true (boolOp p op values).layout := by
  intro n d r hr
  rw [layout]
  refine .cons trivial (fun _ _ => rfl) rfl (.append (inline_operands op h ?_) ?_)
  · exact .cons (by decide)
  · exact legible_close (.inl rfl)

private theorem inline_binary (p : Pos) {left right : Expr} (op : BinOp)
    (hl : Inline (!left.wrapsReceiver) left.layout)
    (hr : Inline (!right.wrapsReceiver) right.layout) :
    Inline false (binary p left op right).layout := by
  intro n d r hd
  have hd' : Delimited r := fun c hc => by simpa using hd c hc
  have hop : op.spelling ∈ Mark.infixes := by cases op <;> decide
  rw [layout]
  refine .append (inline_wrapped hl _ n d _ ((delimited_blank _ r).or _)) ?_
  exact legible_infix hop (inline_wrapped hr _ n d r (hd'.or _))

private theorem inline_unary (p : Pos) {operand : Expr} (op : UnaryOp)
    (ho : ∀ n, Starts (operand.layout n))
    (h : Inline (!operand.wrapsReceiver) operand.layout) :
    Inline false (unary p op operand).layout := by
  intro n d r hd
  have hd' : Delimited r := fun c hc => by simpa using hd c hc
  have hw := inline_wrapped h operand.wrapsOperand n d r (hd'.or _)
  rw [layout]
  by_cases hop : op = .not
  · subst hop
    refine .cons (.inr (by decide)) ?_ rfl (.cons (.inl (by simp)) ?_ rfl hw)
    · simp [Mark.endsBefore, Mark.blank, Mark.kept, Mark.source]
    · exact fun c _ => Mark.endsBefore_blank c
  · have hs : op.spelling ∈ Mark.signs := by cases op <;> first | decide | contradiction
    rw [if_neg hop, List.nil_append]
    refine .cons (.inl hs) (fun c hc => ?_) rfl hw
    obtain ⟨h₁, h₂⟩ := (starts_wrapped ho _ n).head c hc
    simp [Mark.endsBefore, hs, h₁, h₂]

private theorem inline_comparisons (ops : List CmpOp) {es : List Expr}
    (h : ∀ e ∈ es, Inline (!e.wrapsReceiver) e.layout) {n d : Nat} {r : List Char}
    (hr : Delimited r) : Legible d (comparisons ops es n) d r := by
  induction es generalizing ops with
  | nil => cases ops <;> exact .nil d r
  | cons e es ih =>
    cases ops with
    | nil => exact .nil d r
    | cons op ops =>
      have hop : op.spelling ∈ Mark.infixes := by cases op <;> decide
      have hes := ih ops fun e he => h e (List.mem_cons_of_mem _ he)
      have hd : Delimited (Style.kept.text (comparisons ops es n) ++ r) := by
        match ops, es with
        | [], [] | [], _ :: _ | _ :: _, [] => exact hr
        | _ :: _, _ :: _ => exact delimited_blank _ r
      rw [comparisons]
      refine legible_infix hop (.append ?_ hes)
      exact inline_wrapped (h e List.mem_cons_self) _ n d _ (hd.or _)

private theorem inline_compare (p : Pos) {left : Expr} {ops : List CmpOp} {comparators : List Expr}
    (hl : Inline (!left.wrapsReceiver) left.layout)
    (h : ∀ e ∈ comparators, Inline (!e.wrapsReceiver) e.layout) (hne : ops ≠ [])
    (hlen : ops.length = comparators.length) :
    Inline false (compare p left ops comparators).layout := by
  intro n d r hd
  have hd' : Delimited r := fun c hc => by simpa using hd c hc
  rw [layout]
  refine .append (inline_wrapped hl _ n d _ ?_) (inline_comparisons ops h hd')
  obtain ⟨op, ops, rfl⟩ := List.exists_cons_of_ne_nil hne
  cases comparators with
  | nil => simp at hlen
  | cons e es => exact (delimited_blank _ r).or _

private theorem legible_named {tf : Bool} {ms : List Mark} {d d' : Nat} {r : List Char} :
    Legible d (named tf ms) d' r ↔ Legible d ms d' r := by
  unfold named
  split
  · cases tf <;> exact .rfl
  · exact .rfl

private theorem text_named (tf : Bool) (ms : List Mark) :
    Style.kept.text (named tf ms) = Style.kept.text ms := by
  unfold named
  split
  · cases tf <;> rfl
  · rfl

private theorem inline_arguments (tf : Bool) {es : List Expr}
    (h : ∀ e ∈ es, Inline (!e.wrapsReceiver) e.layout) {n d : Nat} {r : List Char}
    (hr : Delimited r) : Legible d (arguments tf es n) d r := by
  induction es with
  | nil => exact .nil d r
  | cons e es ih =>
    have he := h e List.mem_cons_self
    cases es with
    | nil => exact legible_named.2 (he n d r (hr.or _))
    | cons e' es =>
      refine .append (legible_named.2 (he n d _ (Delimited.or (.cons (by decide)) _))) ?_
      exact .cons (.inl (by simp)) (fun c _ => Mark.endsBefore_comma c) rfl
        (ih fun e he => h e (List.mem_cons_of_mem _ he))

private theorem inline_called (tf : Bool) {args : List Expr}
    (h : ∀ e ∈ args, Inline (!e.wrapsReceiver) e.layout) {n d : Nat} {r : List Char}
    (hr : DelimitedOr true r) :
    Legible d (wrapped (!ownParens args) n (arguments tf args)) d r := by
  unfold ownParens
  split
  next p op values =>
    have hv : Legible d ((boolOp p op values).layout n) d r := h _ List.mem_cons_self n d r hr
    simp only [wrapped, Bool.not_true, Bool.false_eq_true, if_false, arguments]
    exact legible_named.2 hv
  next =>
    refine .cons trivial (fun _ _ => rfl) rfl (.append (inline_arguments tf h ?_) ?_)
    · exact .cons (by decide)
    · exact legible_close (.inl rfl)

private theorem delimited_called (tf : Bool) (args : List Expr) (n : Nat) (r : List Char) :
    Delimited (Style.kept.text (wrapped (!ownParens args) n (arguments tf args)) ++ r) := by
  unfold ownParens
  split
  next p op values =>
    simp only [wrapped, Bool.not_true, Bool.false_eq_true, if_false, arguments, text_named]
    rw [layout]
    exact .cons (by decide)
  next => exact .cons (by decide)

private theorem inline_member {value : Expr} {attr : String}
    (h : Inline (!value.wrapsReceiver) value.layout)
    (ha : IsWord attr) {m : Mark} (hm : m = .plain attr ∨ m = .predicate attr) {ms : List Mark}
    {n d d' : Nat} {r : List Char}
    (hr : ∀ c ∈ (Style.kept.text ms ++ r).head?, Text.isNameChar c = false)
    (hms : Legible d ms d' r) :
    Legible d (wrapped value.wrapsReceiver n value.layout ++ .plain "." :: m :: ms) d' r := by
  have hw := inline_wrapped h value.wrapsReceiver
  rw [Bool.or_not_self] at hw
  obtain ⟨c, cs, he, hc, -⟩ := id ha
  have htext : Style.kept.text (m :: ms) = c :: (cs ++ Style.kept.text ms) := by
    rcases hm with rfl | rfl <;> simp [Mark.kept, Mark.source, he]
  refine .append (hw n d _ fun c' hc' => .inr ⟨rfl, ?_⟩) (.cons (.inl (by simp)) ?_ rfl ?_)
  · simpa [Mark.kept, Mark.source, eq_comm] using hc'
  · rw [htext]
    rintro c' hc'
    obtain rfl : c = c' := by simpa using hc'
    rw [Mark.endsBefore, if_neg (by decide), isDigit_of_isNameStart hc]
    simp
  · refine legible_word ?_ ha hr hms
    rcases hm with rfl | rfl
    · exact .inr (.inr rfl)
    · exact .inr (.inl rfl)

private theorem inline_receiver {e : Expr} (h : Inline (!e.wrapsReceiver) e.layout) (n d : Nat)
    {r : List Char} (hr : DelimitedOr true r) :
    Legible d (wrapped e.wrapsReceiver n e.layout) d r := by
  have hw := inline_wrapped h e.wrapsReceiver
  rw [Bool.or_not_self] at hw
  exact hw n d r hr

private theorem inline_call (p : Pos) {func : Expr} {args : List Expr}
    (hf : Inline (!func.wrapsReceiver) func.layout)
    (hv : ∀ q value attr, func = member q value attr →
      Inline (!value.wrapsReceiver) value.layout ∧ IsWord attr)
    (hid : ∀ q id, func = name q id → IsWord id)
    (h : ∀ e ∈ args, Inline (!e.wrapsReceiver) e.layout) :
    Inline true (call p func args).layout := by
  intro n d r hr
  have hargs := fun tf => inline_called tf h (n := n) (d := d) hr
  have hnext := fun tf => delimited_called tf args n r
  have hnc := fun tf c hc => not_isNameChar_of_isDelimiter (hnext tf c hc)
  by_cases hn : ∃ q id, func = name q id
  · obtain ⟨q, id, rfl⟩ := hn
    rw [layout]
    split
    · exact legible_word (.inr (.inl rfl)) (hid q id rfl) (hnc _) (hargs _)
    · exact legible_word (.inl rfl) (hid q id rfl) (hnc _) (hargs _)
  · by_cases hm : ∃ q value attr, func = member q value attr
    · obtain ⟨q, value, attr, rfl⟩ := hm
      obtain ⟨hv, ha⟩ := hv q value attr rfl
      rw [layout]
      split
      · exact inline_member hv ha (.inr rfl) (hnc _) (hargs _)
      · exact inline_member hv ha (.inl rfl) (hnc _) (hargs _)
    · rw [layout]
      · exact .append (inline_receiver hf n d ((hnext false).or _)) (hargs false)
      · exact fun q id hq => hn ⟨q, id, hq⟩
      · exact fun q value attr hq => hm ⟨q, value, attr, hq⟩

private theorem inline_subscript (p : Pos) {value index : Expr}
    (hv : Inline (!value.wrapsReceiver) value.layout)
    (hi : Inline (!index.wrapsReceiver) index.layout) :
    Inline true (subscript p value index).layout := by
  intro n d r hr
  rw [layout]
  refine .append (inline_receiver hv n d (Delimited.or (.cons (by decide)) _)) ?_
  refine .cons trivial (fun _ _ => rfl) rfl (.append (hi n _ _ ?_) (legible_close (.inr rfl)))
  exact Delimited.or (.cons (by decide)) _

private theorem inline_ifExp (p : Pos) {test body orelse : Expr}
    (ht : Inline (!test.wrapsReceiver) test.layout)
    (hb : Inline (!body.wrapsReceiver) body.layout)
    (ho : Inline (!orelse.wrapsReceiver) orelse.layout) :
    Inline false (ifExp p test body orelse).layout := by
  intro n d r hd
  have hd' : Delimited r := fun c hc => by simpa using hd c hc
  have hwif : IsWord "if" := .of_toList 'i' ['f'] rfl (by decide)
  have hwelse : IsWord "else" := .of_toList 'e' ['l', 's', 'e'] rfl (by decide)
  rw [layout]
  refine .append (inline_wrapped hb _ n d _ ((delimited_blank _ r).or _)) ?_
  refine legible_keyword hwif ?_
  refine .append (inline_wrapped ht _ n d _ ((delimited_blank _ r).or _)) ?_
  exact legible_keyword hwelse (inline_wrapped ho _ n d r (hd'.or _))

private theorem inline_name (p : Pos) {id : String} (h : IsWord id) :
    Inline true (name p id).layout := by
  intro n d r hr
  rw [layout]
  exact legible_word (.inl rfl) h (fun c hc => hr.not_isNameChar hc) (.nil d r)

private theorem inline_member_alone (p : Pos) {value : Expr} {attr : String}
    (h : Inline (!value.wrapsReceiver) value.layout) (ha : IsWord attr) :
    Inline true (member p value attr).layout := by
  intro n d r hr
  rw [layout]
  exact inline_member h ha (.inl rfl) (fun c hc => hr.not_isNameChar hc) (.nil d r)

private theorem inline_tuple (p : Pos) {elts : List Expr}
    (h : ∀ e ∈ elts, Inline (!e.wrapsReceiver) e.layout) :
    Inline true (tuple p elts).layout := by
  intro n d r hr
  rw [layout]
  refine .cons trivial (fun _ _ => rfl) rfl ?_
  by_cases hl : elts.length = 1
  · rw [if_pos hl, List.append_assoc]
    refine .append (inline_arguments false h ?_) ?_
    · exact .cons (c := ',') (by decide)
    · refine .cons (.inl (by simp)) (fun c hc => ?_) rfl (legible_close (.inl rfl))
      obtain rfl : ')' = c := by simpa [Mark.kept, Mark.source] using hc
      decide
  · rw [if_neg hl, List.append_nil]
    exact .append (inline_arguments false h (.cons (by decide))) (legible_close (.inl rfl))

private theorem inline_list (p : Pos) {elts : List Expr}
    (h : ∀ e ∈ elts, Inline (!e.wrapsReceiver) e.layout) :
    Inline true (list p elts).layout := by
  intro n d r hr
  rw [layout]
  refine .cons trivial (fun _ _ => rfl) rfl ?_
  exact .append (inline_arguments false h (.cons (by decide))) (legible_close (.inr rfl))

/-- A colon is legible unless a `=` follows. -/
theorem legible_colon {ms : List Mark} {d d' : Nat} {r : List Char}
    (hr : ∀ c ∈ (Style.kept.text ms ++ r).head?, c ≠ '=') (h : Legible d ms d' r) :
    Legible d (.colon :: ms) d' r := by
  refine .cons (.inl (by simp)) (fun c hc => ?_) rfl h
  have := hr c hc
  rw [Mark.colon, Mark.endsBefore, if_neg (by decide)]
  simp [this]

private theorem inline_slice (p : Pos) {lower upper step : Option Expr}
    (hl : ∀ e ∈ lower, Inline (!e.wrapsReceiver) e.layout)
    (hu : ∀ e ∈ upper, (∀ n, Starts (e.layout n)) ∧ Inline (!e.wrapsReceiver) e.layout)
    (hs : ∀ e ∈ step, (∀ n, Starts (e.layout n)) ∧ Inline (!e.wrapsReceiver) e.layout) :
    Inline false (slice p lower upper step).layout := by
  intro n d r hd
  have hd' : Delimited r := fun c hc => by simpa using hd c hc
  have hne : ∀ c ∈ r.head?, c ≠ '=' := by
    rintro c hc rfl
    exact absurd (hd' _ hc) (by decide)
  have hstep : Legible d (bound [.colon] step n) d r := by
    cases step with
    | none => exact .nil d r
    | some e =>
      obtain ⟨ho, hi⟩ := hs e rfl
      exact legible_colon (fun c hc => ((ho n).head c hc).1) (hi n d r (hd'.or _))
  have hdstep : Delimited (Style.kept.text (bound [.colon] step n) ++ r) := by
    cases step with
    | none => exact hd'
    | some e => exact .cons (by decide)
  have hupper : Legible d (bound [] upper n ++ bound [.colon] step n) d r := by
    cases upper with
    | none => exact hstep
    | some e => exact .append ((hu e rfl).2 n d _ (hdstep.or _)) hstep
  have hnext : ∀ c ∈ (Style.kept.text (bound [] upper n ++ bound [.colon] step n) ++ r).head?,
      c ≠ '=' := by
    cases upper with
    | none =>
      rintro c hc rfl
      exact absurd (hdstep _ hc) (by decide)
    | some e =>
      rw [Style.text_append, List.append_assoc]
      exact fun c hc => (((hu e rfl).1 n).head c hc).1
  rw [layout]
  refine .append ?_ (legible_colon hnext hupper)
  cases lower with
  | none => exact .nil d _
  | some e => exact hl e rfl n d _ (Delimited.or (.cons (by decide)) _)

private theorem starts_const (hf : ∀ x, fractions x = true → x.IsWritten) (p : Pos) {v : Constant}
    (h : v.isWritable fractions = true) (n : Nat) : Starts ((const p v).layout n) := by
  have hs := mark_isSound hf h
  have numeral (t : String) (hm : v.mark = .number t) : Starts [v.mark] := by
    rw [hm] at hs ⊢
    obtain ⟨c, cs, he, hc⟩ := hs.head
    refine Starts.of_isNameChar (s := cs) (isNameChar_of_isDigit hc) ?_
    simp [Mark.kept, Mark.source, he]
  rw [layout]
  cases v with
  | bool b =>
    cases b
    · exact .of_text 'F' ⟨_, rfl⟩ (by decide)
    · exact .of_text 'T' ⟨_, rfl⟩ (by decide)
  | int n => exact numeral _ rfl
  | float x => exact numeral _ rfl
  | str s =>
    refine .of_text '\'' ⟨Literal.escape s.toList ++ ['\''], ?_⟩ (by decide)
    simp [Constant.mark, Literal.quote, Mark.kept, Mark.source]
  | none => exact .of_text 'N' ⟨_, rfl⟩ (by decide)

private theorem starts_call (p : Pos) {func : Expr} (args : List Expr)
    (h : ∀ n, Starts (func.layout n))
    (hv : ∀ q value attr, func = member q value attr → ∀ n, Starts (value.layout n))
    (hid : ∀ q id, func = name q id → IsWord id) (n : Nat) :
    Starts ((call p func args).layout n) := by
  by_cases hn : ∃ q id, func = name q id
  · obtain ⟨q, id, rfl⟩ := hn
    rw [layout]
    split
    · exact .of_isWord rfl (hid q id rfl) _
    · exact .of_isWord rfl (hid q id rfl) _
  · by_cases hm : ∃ q value attr, func = member q value attr
    · obtain ⟨q, value, attr, rfl⟩ := hm
      rw [layout]
      exact (starts_wrapped (hv q value attr rfl) _ n).append _
    · rw [layout]
      · exact (starts_wrapped h _ n).append _
      · exact fun q id hq => hn ⟨q, id, hq⟩
      · exact fun q value attr hq => hm ⟨q, value, attr, hq⟩

private theorem starts_slice (p : Pos) {lower : Option Expr} (upper step : Option Expr)
    (h : ∀ e ∈ lower, ∀ n, Starts (e.layout n)) (n : Nat) :
    Starts ((slice p lower upper step).layout n) := by
  rw [layout]
  cases lower with
  | none => exact .of_text ':' ⟨_, rfl⟩ (by decide)
  | some e => exact (h e rfl n).append _

/-- Whether the layout of an expression is legible in front of any delimiter, and can stand behind
a sign. -/
structure IsLegible (e : Expr) : Prop where
  starts (n : Nat) : Starts (e.layout n)
  inline : Inline (!e.wrapsReceiver) e.layout

/-- A call is legible when its parts are and the names in them are words. -/
theorem IsLegible.call (p : Pos) {func : Expr} {args : List Expr} (h : func.IsLegible)
    (hv : ∀ q value attr, func = member q value attr → value.IsLegible ∧ IsWord attr)
    (hid : ∀ q id, func = name q id → IsWord id) (hargs : ∀ e ∈ args, e.IsLegible) :
    (call p func args).IsLegible where
  starts := starts_call p args h.starts (fun q value attr he => (hv q value attr he).1.starts) hid
  inline := inline_call p h.inline
    (fun q value attr he => ⟨(hv q value attr he).1.inline, (hv q value attr he).2⟩) hid
    fun e he => (hargs e he).inline

/-- The layout of an expression that is spelled is legible. -/
theorem isLegible_of_isSpelled (hf : ∀ x, fractions x = true → x.IsWritten) {e : Expr}
    (h : e.isSpelled fractions = true) : e.IsLegible := by
  -- the layout of a call looks into a member that it calls
  suffices hs : e.IsLegible ∧
      ∀ q value attr, e = member q value attr → value.IsLegible ∧ IsWord attr from hs.1
  rw [isSpelled] at h
  induction e using partsInduction with
  | boolOp p op values ih =>
    simp only [walk, List.all_cons, Bool.and_eq_true, all_walkList] at h
    refine ⟨⟨fun n => .of_text '(' ⟨_, by rw [layout]; rfl⟩ (by decide), ?_⟩, (by simp)⟩
    exact inline_boolOp p op fun e he => (ih e he (h.2 e he)).1.inline
  | binary p left op right ihl ihr =>
    simp only [walk, List.all_cons, List.all_append, Bool.and_eq_true] at h
    obtain ⟨hl, -⟩ := ihl h.2.1
    obtain ⟨hr, -⟩ := ihr h.2.2
    refine ⟨⟨fun n => ?_, inline_binary p op hl.inline hr.inline⟩, (by simp)⟩
    rw [layout]
    exact (starts_wrapped hl.starts _ n).append _
  | unary p op operand ih =>
    simp only [walk, List.all_cons, Bool.and_eq_true] at h
    obtain ⟨ho, -⟩ := ih h.2
    refine ⟨⟨fun n => ?_, inline_unary p op ho.starts ho.inline⟩, (by simp)⟩
    rw [layout]
    cases op with
    | not => exact .of_text 'n' ⟨_, rfl⟩ (by decide)
    | invert => exact .of_text '~' ⟨_, rfl⟩ (by decide)
    | plus => exact .of_text '+' ⟨_, rfl⟩ (by decide)
    | minus => exact .of_text '-' ⟨_, rfl⟩ (by decide)
  | compare p left ops comparators ihl ih =>
    simp only [walk, List.all_cons, List.all_append, Bool.and_eq_true, all_walkList, isFormed,
      Bool.not_eq_true', List.isEmpty_eq_false_iff, beq_iff_eq] at h
    obtain ⟨⟨⟨⟨hne, hlen⟩, -⟩, -⟩, hl, hc⟩ := h
    obtain ⟨hl, -⟩ := ihl hl
    have hc' := fun e he => (ih e he (hc e he)).1.inline
    refine ⟨⟨fun n => ?_, inline_compare p hl.inline hc' hne hlen⟩, (by simp)⟩
    rw [layout]
    exact (starts_wrapped hl.starts _ n).append _
  | call p func args ihf ih =>
    simp only [walk, List.all_cons, List.all_append, Bool.and_eq_true, all_walkList] at h
    obtain ⟨-, hfunc, hargs⟩ := h
    obtain ⟨hf, hv⟩ := ihf hfunc
    refine ⟨.call p hf hv ?_ fun e he => (ih e he (hargs e he)).1, (by simp)⟩
    rintro q id rfl
    exact .of_isIdentifier (by simpa [walk, isFormed] using hfunc)
  | member p value attr ih =>
    simp only [walk, List.all_cons, Bool.and_eq_true, isFormed] at h
    obtain ⟨⟨-, hattr⟩, hvalue⟩ := h
    obtain ⟨hv, -⟩ := ih hvalue
    have ha : IsWord attr := .of_isIdentifier hattr
    refine ⟨⟨fun n => ?_, inline_member_alone p hv.inline ha⟩, ?_⟩
    · rw [layout]
      exact (starts_wrapped hv.starts _ n).append _
    · rintro q value' attr' he
      cases he
      exact ⟨hv, ha⟩
  | subscript p value index ihv ihi =>
    simp only [walk, List.all_cons, List.all_append, Bool.and_eq_true] at h
    obtain ⟨hv, -⟩ := ihv h.2.1
    refine ⟨⟨fun n => ?_, inline_subscript p hv.inline (ihi h.2.2).1.inline⟩, (by simp)⟩
    rw [layout]
    exact (starts_wrapped hv.starts _ n).append _
  | ifExp p test body orelse iht ihb iho =>
    simp only [walk, List.all_cons, List.all_append, Bool.and_eq_true] at h
    obtain ⟨ht, -⟩ := iht h.2.1
    obtain ⟨hb, -⟩ := ihb h.2.2.1
    obtain ⟨ho, -⟩ := iho h.2.2.2
    refine ⟨⟨fun n => ?_, inline_ifExp p ht.inline hb.inline ho.inline⟩, (by simp)⟩
    rw [layout]
    exact (starts_wrapped hb.starts _ n).append _
  | name p id =>
    have hw : IsWord id := .of_isIdentifier (by simpa [walk, isFormed] using h)
    exact ⟨⟨fun n => by rw [layout]; exact .of_isWord rfl hw _, inline_name p hw⟩, (by simp)⟩
  | const p value =>
    have hv : value.isWritable fractions = true := by simpa [walk, isFormed] using h
    exact ⟨⟨starts_const hf p hv, inline_const hf p hv⟩, (by simp)⟩
  | tuple p elts ih =>
    simp only [walk, List.all_cons, Bool.and_eq_true, all_walkList] at h
    refine ⟨⟨fun n => .of_text '(' ⟨_, by rw [layout]; rfl⟩ (by decide), ?_⟩, (by simp)⟩
    exact inline_tuple p fun e he => (ih e he (h.2 e he)).1.inline
  | list p elts ih =>
    simp only [walk, List.all_cons, Bool.and_eq_true, all_walkList] at h
    refine ⟨⟨fun n => .of_text '[' ⟨_, by rw [layout]; rfl⟩ (by decide), ?_⟩, (by simp)⟩
    exact inline_list p fun e he => (ih e he (h.2 e he)).1.inline
  | slice p lower upper step ihl ihu ihs =>
    simp only [walk, List.all_cons, List.all_append, Bool.and_eq_true, all_walkOption] at h
    obtain ⟨-, hl, hu, hs⟩ := h
    have hl' := fun e he => (ihl e he (hl e he)).1
    have hu' := fun e he => (ihu e he (hu e he)).1
    have hs' := fun e he => (ihs e he (hs e he)).1
    refine ⟨⟨starts_slice p upper step fun e he => (hl' e he).starts, ?_⟩, (by simp)⟩
    exact inline_slice p (fun e he => (hl' e he).inline)
      (fun e he => ⟨(hu' e he).starts, (hu' e he).inline⟩)
      fun e he => ⟨(hs' e he).starts, (hs' e he).inline⟩

end Expr
end ValidUsage
