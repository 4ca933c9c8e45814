import ValidUsage.Proofs.LiteralText
import ValidUsage.Proofs.Rounding

/-!
# Numbers with a fraction, read back

The text of a number has digits, digits after a point, and an exponent; not all of them have to be
there. The lexer takes such a text as one token, and it is read as the number that it is the text
of.
-/

namespace ValidUsage

/-- A decimal text in its parts. It has digits, and a point with digits or an exponent after
them. -/
structure DecimalText where
  /-- The digits before the point. -/
  whole : List Char
  /-- The digits after the point, if there is a point. -/
  fraction : Option (List Char)
  /-- The digits of the exponent with whether a minus sign leads them, if there is an exponent. -/
  exponent : Option (Bool × List Char)
  whole_ne_nil : whole ≠ []
  whole_digits : ∀ c ∈ whole, c.isDigit = true
  fraction_ne_nil : ∀ ds ∈ fraction, ds ≠ []
  fraction_digits : ∀ ds ∈ fraction, ∀ c ∈ ds, c.isDigit = true
  exponent_ne_nil : ∀ e ∈ exponent, e.2 ≠ []
  exponent_digits : ∀ e ∈ exponent, ∀ c ∈ e.2, c.isDigit = true
  marked : fraction.isSome ∨ exponent.isSome

namespace DecimalText

/-- The point with its digits. -/
def point (t : DecimalText) : List Char := t.fraction.elim [] ('.' :: ·)

/-- The text of an exponent. -/
def power : Bool × List Char → List Char
  | (true, ds) => 'e' :: '-' :: ds
  | (false, ds) => 'e' :: ds

/-- The exponent with its sign. -/
def tail (t : DecimalText) : List Char := t.exponent.elim [] power

/-- The characters of a decimal text. -/
def text (t : DecimalText) : List Char := t.whole ++ t.point ++ t.tail

/-- The digits without the point. -/
def mantissa (t : DecimalText) : List Char := t.whole ++ t.fraction.getD []

/-- The number that an exponent writes. -/
def shift : Bool × List Char → Int
  | (true, ds) => -(Nat.ofDigitChars 10 ds 0 : Int)
  | (false, ds) => Nat.ofDigitChars 10 ds 0

/-- The exponent of ten of the last digit of the mantissa. -/
def scale (t : DecimalText) : Int :=
  t.exponent.elim 0 shift - ((t.fraction.getD []).length : Nat)

variable {t : DecimalText} {r : List Char}

/-! ## The text as a token -/

private theorem tail_cases (t : DecimalText) : t.tail = [] ∨ ∃ s, t.tail = 'e' :: s := by
  unfold tail
  match t.exponent with
  | none => exact .inl rfl
  | some (true, _) => exact .inr ⟨_, rfl⟩
  | some (false, _) => exact .inr ⟨_, rfl⟩

private theorem head_tail (t : DecimalText) (hr : ∀ c ∈ r.head?, endsNumber c = true) :
    ∀ c ∈ (t.tail ++ r).head?, c = 'e' ∨ endsNumber c = true := by
  intro c hc
  rcases t.tail_cases with he | ⟨s, he⟩
  · rw [he] at hc
    exact .inr (hr c hc)
  · rw [he] at hc
    exact .inl (Option.some.inj hc).symm

/-- What follows the digits before the point is the point, an exponent, or the end of the number. -/
theorem head_point_tail (t : DecimalText) (hr : ∀ c ∈ r.head?, endsNumber c = true) :
    ∀ c ∈ (t.point ++ t.tail ++ r).head?, c = '.' ∨ c = 'e' ∨ endsNumber c = true := by
  intro c hc
  unfold point at hc
  cases hf : t.fraction with
  | some ds =>
    rw [hf] at hc
    exact .inl (Option.some.inj hc).symm
  | none =>
    rw [hf] at hc
    exact .inr (t.head_tail hr c hc)

private theorem isDigitOrBar_of_isDigit {c : Char} (h : c.isDigit = true) :
    Lexer.isDigitOrBar c = true := by
  simp [Lexer.isDigitOrBar, h]

/-- The lexer takes an exponent. -/
theorem exponent_tail (t : DecimalText) (hr : ∀ c ∈ r.head?, endsNumber c = true) :
    Lexer.numberText.exponent (t.tail ++ r) = t.tail := by
  have hr' : ∀ c ∈ r.head?, Lexer.isDigitOrBar c = false := fun c hc =>
    isDigitOrBar_of_endsNumber (hr c hc)
  unfold tail
  cases he : t.exponent with
  | none => exact exponent_of_head hr
  | some e =>
    have hd : ∀ c ∈ e.2, Lexer.isDigitOrBar c = true := fun c hc =>
      isDigitOrBar_of_isDigit (t.exponent_digits e he c hc)
    have hdigit := t.exponent_digits e he
    have hne := t.exponent_ne_nil e he
    obtain ⟨neg, ds⟩ := e
    cases neg with
    | true =>
      show 'e' :: '-' :: (ds ++ r).takeWhile Lexer.isDigitOrBar = 'e' :: '-' :: ds
      rw [takeWhile_append_of_head hd hr']
    | false =>
      obtain ⟨c, ds, rfl⟩ := List.exists_cons_of_ne_nil hne
      have hc := hdigit c List.mem_cons_self
      have hsign : ¬(c = '+' ∨ c = '-') := by
        rintro (rfl | rfl) <;> exact absurd hc (by decide)
      show (if c = '+' ∨ c = '-' then 'e' :: c :: (ds ++ r).takeWhile Lexer.isDigitOrBar
        else 'e' :: ((c :: ds) ++ r).takeWhile Lexer.isDigitOrBar) = 'e' :: c :: ds
      rw [if_neg hsign, takeWhile_append_of_head hd hr']

/-- The lexer takes decimal digits with a fraction and an exponent. -/
theorem decimal_text (t : DecimalText) (hr : ∀ c ∈ r.head?, endsNumber c = true) :
    Lexer.numberText.decimal (t.text ++ r) = t.text := by
  have hw : ∀ c ∈ t.whole, Lexer.isDigitOrBar c = true := fun c hc =>
    isDigitOrBar_of_isDigit (t.whole_digits c hc)
  have hnot {c : Char} (h : c = 'e' ∨ endsNumber c = true) : Lexer.isDigitOrBar c = false := by
    rcases h with rfl | h
    · decide
    · exact isDigitOrBar_of_endsNumber h
  have hhead : ∀ c ∈ (t.point ++ t.tail ++ r).head?, Lexer.isDigitOrBar c = false := by
    intro c hc
    rcases t.head_point_tail hr c hc with rfl | h
    · decide
    · exact hnot h
  have he : t.text ++ r = t.whole ++ (t.point ++ t.tail ++ r) := by simp [text]
  rw [he]
  unfold Lexer.numberText.decimal
  simp only [takeWhile_append_of_head hw hhead, dropWhile_append_of_head hw hhead]
  rw [text, point]
  cases hf : t.fraction with
  | some ds =>
    have hd : ∀ c ∈ ds, Lexer.isDigitOrBar c = true := fun c hc =>
      isDigitOrBar_of_isDigit (t.fraction_digits ds hf c hc)
    have hd' : ∀ c ∈ (t.tail ++ r).head?, Lexer.isDigitOrBar c = false := fun c hc =>
      hnot (t.head_tail hr c hc)
    simp only [Option.elim_some, List.cons_append, List.append_assoc,
      takeWhile_append_of_head hd hd', dropWhile_append_of_head hd hd', exponent_tail t hr]
  | none =>
    simp only [Option.elim_none, List.nil_append, List.append_nil]
    split
    · rename_i r' he
      have hc := t.head_tail hr '.' (by rw [he]; rfl)
      exact absurd hc (by decide)
    · rw [exponent_tail t hr, List.append_nil]

/-- The lexer takes a decimal text as a number. -/
theorem numberText_text (t : DecimalText) (hr : ∀ c ∈ r.head?, endsNumber c = true) :
    Lexer.numberText (t.text ++ r) = t.text := by
  rw [Lexer.numberText_of_no_base, decimal_text t hr]
  intro b s he
  -- what follows the first digit is a digit, a point or an exponent, so it is no base
  have hb : b.isDigit = true ∨ b = '.' ∨ b = 'e' ∨ endsNumber b = true := by
    have hhead := t.head_point_tail hr
    have hdigits := t.whole_digits
    rw [text, List.append_assoc, List.append_assoc] at he
    rw [List.append_assoc] at hhead
    match hw : t.whole with
    | [] => exact absurd hw t.whole_ne_nil
    | [c] =>
      rw [hw] at he
      have hrest : t.point ++ (t.tail ++ r) = b :: s := (List.cons.inj he).2
      exact .inr (hhead b (by rw [hrest]; rfl))
    | c :: c' :: cs =>
      rw [hw] at he hdigits
      obtain rfl := (List.cons.inj (List.cons.inj he).2).1
      exact .inl (hdigits c' (List.mem_cons_of_mem _ List.mem_cons_self))
  simp only [Lexer.bases, List.mem_cons, List.not_mem_nil, or_false]
  rintro (rfl | rfl | rfl | rfl | rfl | rfl) <;> revert hb <;> decide

/-- Each character of a decimal text is a digit, a point, the letter of an exponent or a minus
sign. -/
theorem char_of_mem_text {c : Char} (h : c ∈ t.text) :
    c.isDigit = true ∨ c = '.' ∨ c = 'e' ∨ c = '-' := by
  rw [text, List.mem_append, List.mem_append] at h
  rcases h with (h | h) | h
  · exact .inl (t.whole_digits c h)
  · unfold point at h
    cases hf : t.fraction with
    | none => simp [hf] at h
    | some ds =>
      rw [hf] at h
      rcases List.mem_cons.1 h with rfl | h
      · exact .inr (.inl rfl)
      · exact .inl (t.fraction_digits ds hf c h)
  · unfold tail at h
    cases he : t.exponent with
    | none => simp [he] at h
    | some e =>
      rw [he] at h
      have hdigits := t.exponent_digits e he c
      obtain ⟨neg, ds⟩ := e
      cases neg with
      | true =>
        rcases List.mem_cons.1 h with rfl | h
        · exact .inr (.inr (.inl rfl))
        rcases List.mem_cons.1 h with rfl | h
        · exact .inr (.inr (.inr rfl))
        · exact .inl (hdigits h)
      | false =>
        rcases List.mem_cons.1 h with rfl | h
        · exact .inr (.inr (.inl rfl))
        · exact .inl (hdigits h)

/-- A decimal text ends with a digit, of its exponent or behind its point. -/
theorem isDigit_of_getLast? {c : Char} (h : c ∈ t.text.getLast?) : c.isDigit = true := by
  have hlast {l : List Char} (hne : l ≠ []) (hd : ∀ c ∈ l, c.isDigit = true) (u : List Char) :
      ∀ c ∈ (u ++ l).getLast?, c.isDigit = true := by
    intro c hc
    rw [List.getLast?_append_of_ne_nil _ hne] at hc
    exact hd c (List.mem_of_getLast? hc)
  cases he : t.exponent with
  | some e =>
    have hne := t.exponent_ne_nil e he
    have hd := t.exponent_digits e he
    obtain ⟨neg, ds⟩ := e
    cases neg with
    | true =>
      refine hlast hne hd (t.whole ++ t.point ++ ['e', '-']) c ?_
      simpa [text, tail, he, power] using h
    | false =>
      refine hlast hne hd (t.whole ++ t.point ++ ['e']) c ?_
      simpa [text, tail, he, power] using h
  | none =>
    obtain ⟨ds, hf⟩ := Option.isSome_iff_exists.1 (t.marked.resolve_right (by simp [he]))
    refine hlast (t.fraction_ne_nil ds hf) (t.fraction_digits ds hf) (t.whole ++ ['.']) c ?_
    simpa [text, point, tail, he, hf] using h

/-- A decimal text is a number. -/
theorem isNumeral (t : DecimalText) {s : String} (hs : s.toList = t.text) : IsNumeral s where
  head := by
    have hdigits := t.whole_digits
    obtain ⟨c, cs, he⟩ := List.exists_cons_of_ne_nil t.whole_ne_nil
    refine ⟨c, cs ++ t.point ++ t.tail, ?_, hdigits c (he ▸ List.mem_cons_self)⟩
    rw [hs, text, he]
    rfl
  last c hc := isDigit_of_getLast? (hs ▸ hc)
  chars c hc := by
    rw [hs] at hc
    rcases char_of_mem_text hc with h | rfl | rfl | rfl
    · simp [isNameChar_of_isDigit h]
    · decide
    · decide
    · decide
  numberText r hr := by
    rw [hs]
    exact t.numberText_text hr

/-! ## The value of the text -/

/-- Digits that are not none write a number. -/
theorem ofDigits?_of_digits {ds : List Char} (hne : ds ≠ []) (hd : ∀ c ∈ ds, c.isDigit = true) :
    Literal.ofDigits? 10 ds = some (Nat.ofDigitChars 10 ds 0) := by
  have hall : ∀ n, ds.foldlM (fun n c => if Literal.digitValue c < 10 then
      some (n * 10 + Literal.digitValue c) else none) n = some (Nat.ofDigitChars 10 ds n) := by
    clear hne
    induction ds with
    | nil => exact fun n => by simp
    | cons c cs ih =>
      intro n
      have hc := hd c List.mem_cons_self
      have hv : Literal.digitValue c = c.toNat - '0'.toNat := by rw [Literal.digitValue, if_pos hc]
      have hlt : c.toNat - '0'.toNat < 10 := by
        have h := (Char.isDigit_iff_toNat.1 hc).2
        have h0 : '0'.toNat = 48 := rfl
        have h9 : '9'.toNat = 57 := rfl
        omega
      rw [List.foldlM_cons, hv, if_pos hlt, Option.bind_eq_bind, Option.bind_some,
        ih (fun c hc => hd c (List.mem_cons_of_mem _ hc)), Nat.ofDigitChars_cons, Nat.mul_comm n]
  rw [Literal.ofDigits?, List.isEmpty_eq_false_iff.2 hne, if_neg (by decide), hall]

private theorem mantissa_digits (t : DecimalText) : ∀ c ∈ t.mantissa, c.isDigit = true := by
  intro c hc
  rcases List.mem_append.1 hc with h | h
  · exact t.whole_digits c h
  · cases hf : t.fraction with
    | none => simp [hf] at h
    | some ds =>
      rw [hf] at h
      exact t.fraction_digits ds hf c h

private theorem mantissa_ne_nil (t : DecimalText) : t.mantissa ≠ [] :=
  List.append_ne_nil_of_left_ne_nil t.whole_ne_nil _

private theorem isDigit_of_head {s : List Char} (h : ∀ c ∈ (s ++ []).head?, c = '.' ∨ c = 'e' ∨
    endsNumber c = true) : ∀ c ∈ s.head?, c.isDigit = false := by
  intro c hc
  rcases h c (by rwa [List.append_nil]) with rfl | rfl | h
  · decide
  · decide
  · have hbar := isDigitOrBar_of_endsNumber h
    rw [Lexer.isDigitOrBar, Bool.or_eq_false_iff] at hbar
    exact hbar.1

/-- The exponent of a decimal text is read as the number that it writes. -/
theorem exponent_tail_value {α : Type} (t : DecimalText) (f : Int → Option α) :
    (match t.tail with
      | [] => f 0
      | 'e' :: '-' :: ds => (Literal.ofDigits? 10 ds).bind fun n => f (-(n : Nat))
      | 'e' :: '+' :: ds => (Literal.ofDigits? 10 ds).bind fun n => f (n : Nat)
      | 'e' :: ds => (Literal.ofDigits? 10 ds).bind fun n => f (n : Nat)
      | _ => none) = f (t.exponent.elim 0 shift) := by
  unfold tail
  cases he : t.exponent with
  | none => rfl
  | some e =>
    have hne := t.exponent_ne_nil e he
    have hdigit := t.exponent_digits e he
    have hds := ofDigits?_of_digits hne hdigit
    obtain ⟨neg, ds⟩ := e
    cases neg with
    | true => simp only [Option.elim_some, power, shift, hds, Option.bind_some]
    | false =>
      obtain ⟨c, ds, rfl⟩ := List.exists_cons_of_ne_nil hne
      have hc := hdigit c List.mem_cons_self
      have hminus : c ≠ '-' := isDigit_ne hc (by decide)
      have hplus : c ≠ '+' := isDigit_ne hc (by decide)
      simp only [Option.elim_some, power, shift]
      split
      · rename_i h
        exact absurd h nofun
      · rename_i h
        exact absurd (List.cons.inj (List.cons.inj h).2).1 hminus
      · rename_i h
        exact absurd (List.cons.inj (List.cons.inj h).2).1 hplus
      · rename_i h
        rw [← (List.cons.inj h).2, hds, Option.bind_some]
      · rename_i h
        exact absurd rfl (h _)

/-- A decimal text is read as the number nearest to its value. -/
theorem float?_text (t : DecimalText) : Literal.float? t.text =
    (Binary64.ofDecimal false (Nat.ofDigitChars 10 t.mantissa 0) t.scale).map .float := by
  have hnil : ∀ c ∈ ([] : List Char).head?, endsNumber c = true := nofun
  have hw := t.whole_digits
  have hhead := isDigit_of_head (t.head_point_tail hnil)
  have htail := isDigit_of_head fun c hc => .inr (t.head_tail hnil c hc)
  have hmantissa := ofDigits?_of_digits t.mantissa_ne_nil t.mantissa_digits
  let scaled (e : Int) : Option Constant :=
    (Literal.ofDigits? 10 t.mantissa).bind fun n =>
      (Binary64.ofDecimal false n (e - (t.fraction.getD []).length)).bind fun x => some (.float x)
  have hscaled : scaled (t.exponent.elim 0 shift) =
      (Binary64.ofDecimal false (Nat.ofDigitChars 10 t.mantissa 0) t.scale).map .float := by
    simp only [scaled, hmantissa, Option.bind_some, Option.map_eq_bind, scale]
    rfl
  rw [← hscaled, ← exponent_tail_value t scaled, text, List.append_assoc]
  unfold Literal.float?
  simp only [takeWhile_append_of_head hw hhead, dropWhile_append_of_head hw hhead]
  simp only [scaled, mantissa]
  unfold point
  cases hf : t.fraction with
  | some ds =>
    have hd := t.fraction_digits ds hf
    simp only [Option.elim_some, List.cons_append, takeWhile_append_of_head hd htail,
      dropWhile_append_of_head hd htail, Option.getD_some]
    rfl
  | none =>
    simp only [Option.elim_none, List.nil_append, Option.getD_none]
    rcases t.tail_cases with he | ⟨s, he⟩
    · rw [he]
      rfl
    · rw [he]
      rfl

/-- The value of a decimal text is the number nearest to its value. -/
theorem number?_text (t : DecimalText) : Literal.number? t.text =
    (Binary64.ofDecimal false (Nat.ofDigitChars 10 t.mantissa 0) t.scale).map .float := by
  have hchars {c : Char} (hc : c ∈ t.text) : c ≠ '_' ∧ c.toLower = c ∧ c ∉ ['x', 'o', 'b'] := by
    rcases char_of_mem_text hc with h | rfl | rfl | rfl
    · refine ⟨isDigit_ne h (by decide), Literal.toLower_of_isDigit h, ?_⟩
      simp only [List.mem_cons, List.not_mem_nil, or_false]
      rintro (rfl | rfl | rfl) <;> exact absurd h (by decide)
    all_goals decide
  have hfilter : t.text.filter (· ≠ '_') = t.text :=
    List.filter_eq_self.2 fun c hc => by simpa using (hchars hc).1
  have hlower : t.text.map Char.toLower = t.text :=
    (List.map_congr_left fun c hc => (hchars hc).2.1).trans (List.map_id _)
  have hmarked : (t.text.contains '.' || t.text.contains 'e') = true := by
    rw [Bool.or_eq_true, List.contains_iff_mem, List.contains_iff_mem]
    rcases t.marked with h | h
    · obtain ⟨ds, hds⟩ := Option.isSome_iff_exists.1 h
      exact .inl (by simp [text, point, hds])
    · obtain ⟨⟨neg, ds⟩, hds⟩ := Option.isSome_iff_exists.1 h
      exact .inr (by cases neg <;> simp [text, tail, hds, power])
  unfold Literal.number?
  simp only [hfilter, hlower]
  split
  · rename_i ds he
    exact absurd (hchars (c := 'x') (by rw [he]; simp)).2.2 (by decide)
  · rename_i ds he
    exact absurd (hchars (c := 'o') (by rw [he]; simp)).2.2 (by decide)
  · rename_i ds he
    exact absurd (hchars (c := 'b') (by rw [he]; simp)).2.2 (by decide)
  · rw [if_pos hmarked, float?_text]

end DecimalText

/-! ## Numbers as they are written -/

namespace DecimalStyle

/-- Whether a decimal text has the value of `n * 10 ^ e`, zeros that move between the digits and the
exponent aside. -/
def Writes (t : DecimalText) (n : Nat) (e : Int) : Prop :=
  ∃ k : Nat, Nat.ofDigitChars 10 t.mantissa 0 = n * 10 ^ k ∧ t.scale + k = e

/-- A text that writes a decimal number is read as the number rounded. -/
theorem Writes.number? {t : DecimalText} {n : Nat} {e : Int} (h : Writes t n e) :
    Literal.number? t.text = (Binary64.ofDecimal false n e).map .float := by
  obtain ⟨k, hdigits, hscale⟩ := h
  rw [t.number?_text, hdigits, Binary64.ofDecimal_tenfolds, hscale]

/-- Digits with a point behind the first one, if there are others. -/
def pointed (ds : List Char) : List Char :=
  match ds with
  | c :: c' :: cs => c :: '.' :: c' :: cs
  | _ => ds

/-- The sign and the digits of an exponent. -/
def powerOf (e : Int) : Bool × List Char := (decide (e < 0), Nat.toDigits 10 e.natAbs)

private theorem power_powerOf (e : Int) : DecimalText.power (powerOf e) =
    'e' :: (if e < 0 then '-' :: Nat.toDigits 10 e.natAbs
      else literal.plus ++ Nat.toDigits 10 e.natAbs) := by
  by_cases h : e < 0 <;> simp [powerOf, DecimalText.power, h, literal]

private theorem shift_powerOf (e : Int) : DecimalText.shift (powerOf e) = e := by
  have hval : Nat.ofDigitChars 10 (Nat.toDigits 10 e.natAbs) 0 = e.natAbs :=
    Nat.ofDigitChars_toDigits (by decide) (by decide)
  by_cases h : e < 0
  · simp only [powerOf, h, decide_true, DecimalText.shift, hval]
    omega
  · simp only [powerOf, h, decide_false, DecimalText.shift, hval]
    omega

section Digits

variable {ds : List Char} {n : Nat} {e : Int} (hds : ∀ c ∈ ds, c.isDigit = true) (hne : ds ≠ [])
  (hn : Nat.ofDigitChars 10 ds 0 = n)

include hds

private theorem isDigit_of_mem_zeros {k : Nat} {c : Char}
    (h : c ∈ List.replicate k '0' ++ ds ∨ c ∈ ds ++ List.replicate k '0') : c.isDigit = true := by
  have hzero (hc : c ∈ List.replicate k '0') : c.isDigit = true := by
    rw [List.eq_of_mem_replicate hc]
    decide
  rcases h with h | h
  · exact (List.mem_append.1 h).elim hzero (hds c)
  · exact (List.mem_append.1 h).elim (hds c) hzero

include hne hn

/-- Digits behind a point and zeros. -/
theorem exists_below_one (k : Nat) (he : e = -((k + ds.length : Nat) : Int)) :
    ∃ t : DecimalText, t.text = ['0', '.'] ++ List.replicate k '0' ++ ds ∧ Writes t n e := by
  refine ⟨⟨['0'], some (List.replicate k '0' ++ ds), none, nofun, forall_mem_of_all (by decide), ?_,
    ?_, nofun, nofun, .inl rfl⟩, ?_, 0, ?_, ?_⟩
  · rintro _ ⟨⟩
    exact List.append_ne_nil_of_right_ne_nil _ hne
  · rintro _ ⟨⟩ c hc
    exact isDigit_of_mem_zeros hds (.inl hc)
  · simp [DecimalText.text, DecimalText.point, DecimalText.tail]
  · simp [DecimalText.mantissa, Nat.ofDigitChars_append, Nat.ofDigitChars_cons,
      Nat.ofDigitChars_replicate_zero, hn]
  · simp [DecimalText.scale, he]

/-- Digits with a point among them, or behind them and zeros. -/
theorem exists_positional (k : Nat) (he : e = (k : Int) + 1 - ds.length) : ∃ t : DecimalText,
    t.text = ds.take (k + 1) ++ List.replicate (k + 1 - ds.length) '0' ++
      '.' :: (if (ds.drop (k + 1)).isEmpty then ['0'] else ds.drop (k + 1)) ∧ Writes t n e := by
  have htake : ds.take (k + 1) ≠ [] := by simpa using hne
  refine ⟨⟨ds.take (k + 1) ++ List.replicate (k + 1 - ds.length) '0',
    some (if (ds.drop (k + 1)).isEmpty then ['0'] else ds.drop (k + 1)), none,
    List.append_ne_nil_of_left_ne_nil htake _, ?_, ?_, ?_, nofun, nofun, .inl rfl⟩, ?_, ?_⟩
  · exact fun c hc => isDigit_of_mem_zeros (fun c hc => hds c (List.mem_of_mem_take hc)) (.inr hc)
  · rintro _ ⟨⟩
    split
    · exact List.cons_ne_nil _ _
    · rename_i hempty
      exact fun h => hempty (List.isEmpty_iff.2 h)
  · rintro _ ⟨⟩ c hc
    split at hc
    · rw [List.mem_singleton.1 hc]
      decide
    · exact hds c (List.mem_of_mem_drop hc)
  · simp [DecimalText.text, DecimalText.point, DecimalText.tail]
  · rw [Writes, DecimalText.mantissa, DecimalText.scale]
    by_cases hlen : ds.length ≤ k + 1
    · refine ⟨k + 1 - ds.length + 1, ?_, ?_⟩
      · simp only [List.take_of_length_le hlen, List.drop_eq_nil_of_le hlen, List.isEmpty_nil,
          if_true, Option.getD_some, Nat.ofDigitChars_append, Nat.ofDigitChars_replicate_zero,
          Nat.ofDigitChars_cons, Nat.ofDigitChars_nil, Nat.sub_self, Nat.add_zero, hn]
        ring
      · simp only [List.drop_eq_nil_of_le hlen, List.isEmpty_nil, if_true, Option.elim_none,
          Option.getD_some, List.length_singleton]
        omega
    · refine ⟨0, ?_, ?_⟩
      · simp [hlen, Nat.sub_eq_zero_of_le (Nat.le_of_not_le hlen), hn]
      · simp [hlen]
        omega

/-- A digit, a point with the other digits if there are any, and an exponent. -/
theorem exists_powered (k : Int) (he : e = k + 1 - ds.length) : ∃ t : DecimalText,
    t.text = pointed ds ++ DecimalText.power (powerOf k) ∧ Writes t n e := by
  have hpower : ∀ x ∈ some (powerOf k), x.2 ≠ [] ∧ ∀ c ∈ x.2, c.isDigit = true := by
    rintro _ ⟨⟩
    exact ⟨Nat.toDigits_ne_nil,
      fun c hc => Nat.isDigit_of_mem_toDigits (by decide) (by decide) hc⟩
  match ds with
  | [] => exact absurd rfl hne
  | [c] =>
    refine ⟨⟨[c], none, some (powerOf k), nofun, hds, nofun, nofun, fun x hx => (hpower x hx).1,
      fun x hx => (hpower x hx).2, .inr rfl⟩, ?_, 0, ?_, ?_⟩
    · simp [DecimalText.text, DecimalText.point, DecimalText.tail, pointed]
    · simp [DecimalText.mantissa, hn]
    · simp [DecimalText.scale, shift_powerOf, he]
  | c :: c' :: cs =>
    refine ⟨⟨[c], some (c' :: cs), some (powerOf k), nofun, ?_, ?_, ?_, fun x hx => (hpower x hx).1,
      fun x hx => (hpower x hx).2, .inl rfl⟩, ?_, 0, ?_, ?_⟩
    · exact fun x hx => hds x (List.mem_singleton.1 hx ▸ List.mem_cons_self)
    · rintro _ ⟨⟩
      exact List.cons_ne_nil _ _
    · rintro _ ⟨⟩ x hx
      exact hds x (List.mem_cons_of_mem _ hx)
    · simp [DecimalText.text, DecimalText.point, DecimalText.tail, pointed]
    · simp [DecimalText.mantissa, hn]
    · simp [DecimalText.scale, shift_powerOf, he]

end Digits

/-- The digits of a decimal are written as a decimal text that has its value. -/
theorem exists_decimalText (d : Decimal) :
    ∃ t : DecimalText, t.text = literal.digits d ∧ Writes t d.digits d.exp := by
  have hds : ∀ c ∈ Nat.toDigits 10 d.digits, c.isDigit = true :=
    fun c hc => Nat.isDigit_of_mem_toDigits (by decide) (by decide) hc
  have hne : Nat.toDigits 10 d.digits ≠ [] := Nat.toDigits_ne_nil
  have hval : Nat.ofDigitChars 10 (Nat.toDigits 10 d.digits) 0 = d.digits :=
    Nat.ofDigitChars_toDigits (by decide) (by decide)
  unfold digits
  dsimp only
  generalize Nat.toDigits 10 d.digits = ds at *
  generalize hlead : d.exp + (ds.length : Int) - 1 = lead
  split
  · split
    · exact exists_below_one hds hne hval (-lead - 1).toNat (by omega)
    · exact exists_positional hds hne hval lead.toNat (by omega)
  · obtain ⟨t, ht, hw⟩ := exists_powered (e := d.exp) hds hne hval lead (by omega)
    exact ⟨t, by rw [ht, power_powerOf]; rfl, hw⟩

/-- A canonical number is written as a decimal text that has its value. -/
theorem exists_write {x : Binary64} (hx : x.isCanonical = true) : ∃ t : DecimalText,
    (literal.write x).toList = t.text ∧ Literal.number? t.text = some (.float x) := by
  have hneg : x.neg = false := (Binary64.isCanonical_iff.1 hx).1
  rw [write, hneg, String.toList_ofList, if_neg Bool.false_ne_true]
  by_cases hm : x.mant = 0
  · rw [if_pos hm, Binary64.eq_zero_of_isCanonical hx hm]
    exact ⟨⟨['0'], some ['0'], none, nofun, forall_mem_of_all (by decide), by decide,
      fun ds h => Option.some.inj h ▸ forall_mem_of_all (by decide), nofun, nofun,
      .inl rfl⟩, rfl, by decide⟩
  · obtain ⟨t, ht, hw⟩ := exists_decimalText (x.shortest literal.tieToEven)
    have hread := Binary64.readsBack_shortest hx hm literal.tieToEven
    rw [Binary64.readsBack, beq_iff_eq, hneg] at hread
    refine ⟨t, by rw [if_neg hm, ht], ?_⟩
    rw [hw.number?, hread]
    rfl

end DecimalStyle

/-- A canonical number is read from its text as itself. -/
theorem Binary64.isWritten_of_isCanonical {x : Binary64} (hx : x.isCanonical = true) :
    x.IsWritten := by
  obtain ⟨t, ht, hvalue⟩ := DecimalStyle.exists_write hx
  exact ⟨t.isNumeral ht, by rw [ht, hvalue]⟩

end ValidUsage
