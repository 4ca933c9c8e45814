import ValidUsage.Number.Decimal
import ValidUsage.Paragraph.Comment
import ValidUsage.Syntax.Lexer
import ValidUsage.Syntax.Literal

/-!
# Texts of literals, read back

A number is written with digits that the lexer takes as one token and that have its value. A comment
that is kept stands between double quotes, and is what these enclose.
-/

namespace ValidUsage

/-- Whether a character ends a number in front of it. -/
def endsNumber (c : Char) : Bool := !Text.isNameChar c && c != '.'

/-- Whether a text is a number, and read as one up to its end wherever it stands. -/
structure IsNumeral (t : String) : Prop where
  /-- It starts with a digit. -/
  head : ∃ c cs, t.toList = c :: cs ∧ c.isDigit = true
  /-- It ends with a digit. -/
  last : ∀ c ∈ t.toList.getLast?, c.isDigit = true
  /-- No character of it is a mark of its own. -/
  chars : ∀ c ∈ t.toList, (Text.isNameChar c || c == '.' || c == '-') = true
  /-- The lexer takes all of it and nothing else. -/
  numberText : ∀ r : List Char, (∀ c ∈ r.head?, endsNumber c = true) →
    Lexer.numberText (t.toList ++ r) = t.toList

/-- What is checked of each character of a list holds of each. -/
theorem forall_mem_of_all {p : Char → Prop} [DecidablePred p] {cs : List Char}
    (h : cs.all (fun c => p c) = true) : ∀ c ∈ cs, p c := by
  simpa using h

/-- A letter is a capital or a small one. -/
theorem isAlpha_eq (c : Char) : c.isAlpha = (decide (c.val ≥ 'A'.val ∧ c.val ≤ 'Z'.val) ||
    (decide (c.val ≥ 'a'.val) && decide (c.val ≤ 'z'.val))) :=
  rfl

/-- What starts a name is a character of names. -/
theorem isNameChar_of_isNameStart {c : Char} (h : Text.isNameStart c = true) :
    Text.isNameChar c = true := by
  simp only [Text.isNameStart, Text.isNameChar, Char.isAlphanum, Bool.or_eq_true] at h ⊢
  rcases h with h | h <;> simp [h]

/-- So is a digit. -/
theorem isNameChar_of_isDigit {c : Char} (h : c.isDigit = true) : Text.isNameChar c = true := by
  simp [Text.isNameChar, Char.isAlphanum, h]

/-- No name starts with a digit. -/
theorem isDigit_of_isNameStart {c : Char} (h : Text.isNameStart c = true) :
    c.isDigit = false := by
  rw [← Bool.not_eq_true]
  intro hd
  simp only [Char.isDigit, Bool.and_eq_true, decide_eq_true_eq, ge_iff_le] at hd
  simp only [Text.isNameStart, isAlpha_eq, Bool.or_eq_true, Bool.and_eq_true,
    decide_eq_true_eq, ge_iff_le, beq_iff_eq] at h
  rcases h with (h | h) | rfl
  · exact absurd (UInt32.le_trans h.1 hd.2) (by decide)
  · exact absurd (UInt32.le_trans h.1 hd.2) (by decide)
  · exact absurd hd.2 (by decide)

/-- A digit is none of the other characters. -/
theorem isDigit_ne {c : Char} (hc : c.isDigit = true) {x : Char} (hx : x.isDigit = false) :
    c ≠ x := by
  rintro rfl
  simp [hc] at hx

/-- No character of names is a blank. -/
theorem isBlank_of_isNameChar {c : Char} (h : Text.isNameChar c = true) :
    Text.isBlank c = false := by
  simp only [Text.isNameChar, Char.isAlphanum, isAlpha_eq, Char.isDigit, Bool.or_eq_true,
    Bool.and_eq_true, decide_eq_true_eq, ge_iff_le, UInt32.le_iff_toNat_le, beq_iff_eq] at h
  have hc : 48 ≤ c.toNat ∧ c.toNat ≤ 122 := by
    simp only [Char.toNat]
    rcases h with ((h | h) | h) | rfl
    · exact ⟨Nat.le_trans (by decide) h.1, Nat.le_trans h.2 (by decide)⟩
    · exact ⟨Nat.le_trans (by decide) h.1, Nat.le_trans h.2 (by decide)⟩
    · exact ⟨Nat.le_trans (by decide) h.1, Nat.le_trans h.2 (by decide)⟩
    · decide
  simp [Text.isBlank, Text.blankRanges]
  omega

/-- The longest front with a property ends where the first character without it stands. -/
theorem takeWhile_append_of_head {α : Type} {p : α → Bool} {ds r : List α}
    (hd : ∀ c ∈ ds, p c = true) (hr : ∀ c ∈ r.head?, p c = false) :
    (ds ++ r).takeWhile p = ds := by
  rw [List.takeWhile_append_of_pos hd]
  cases r with
  | nil => simp
  | cons c cs => simp [hr c rfl]

/-- What follows the longest front starts there. -/
theorem dropWhile_append_of_head {α : Type} {p : α → Bool} {ds r : List α}
    (hd : ∀ c ∈ ds, p c = true) (hr : ∀ c ∈ r.head?, p c = false) :
    (ds ++ r).dropWhile p = r := by
  rw [List.dropWhile_append_of_pos hd]
  cases r with
  | nil => simp
  | cons c cs => simp [hr c rfl]

namespace Lexer

/-- A decimal number with a point has digits on both sides, and perhaps an exponent. -/
theorem decimal_of_point {s r : List Char} (h : s.dropWhile isDigitOrBar = '.' :: r) :
    numberText.decimal s = s.takeWhile isDigitOrBar ++ '.' :: r.takeWhile isDigitOrBar ++
      numberText.exponent (r.dropWhile isDigitOrBar) := by
  simp only [numberText.decimal, h]

/-- One without a point has digits, and perhaps an exponent. -/
theorem decimal_of_no_point {s : List Char} (h : ∀ r, s.dropWhile isDigitOrBar ≠ '.' :: r) :
    numberText.decimal s =
      s.takeWhile isDigitOrBar ++ numberText.exponent (s.dropWhile isDigitOrBar) := by
  simp only [numberText.decimal, List.append_nil]

/-- The letters that stand for a base behind a zero. -/
def bases : List Char := ['x', 'X', 'o', 'O', 'b', 'B']

/-- A number with a base goes on as long as its digits do. -/
theorem numberText_of_base {b : Char} (hb : b ∈ bases) (r : List Char) :
    numberText ('0' :: b :: r) = '0' :: b :: r.takeWhile fun c => isHexDigit c || c == '_' :=
  if_pos hb

/-- A number without a base is a decimal one. -/
theorem numberText_of_no_base {s : List Char} (h : ∀ b r, s = '0' :: b :: r → b ∉ bases) :
    numberText s = numberText.decimal s := by
  unfold numberText
  split
  · rename_i b r
    exact if_neg (h b r rfl)
  · rfl

end Lexer

/-- What ends a number is neither a digit nor a bar. -/
theorem isDigitOrBar_of_endsNumber {c : Char} (h : endsNumber c = true) :
    Lexer.isDigitOrBar c = false := by
  simp only [endsNumber, Text.isNameChar, Char.isAlphanum, Bool.and_eq_true,
    Bool.not_eq_true', Bool.or_eq_false_iff] at h
  simp only [Lexer.isDigitOrBar, h, Bool.or_self]

/-- What ends a number starts no exponent. -/
theorem exponent_of_head {r : List Char} (hr : ∀ c ∈ r.head?, endsNumber c = true) :
    Lexer.numberText.exponent r = [] := by
  cases r with
  | nil => rfl
  | cons c cs =>
    have hc : ¬ (c = 'e' ∨ c = 'E') := by
      rintro (rfl | rfl) <;> exact absurd (hr _ rfl) (by decide)
    simp [Lexer.numberText.exponent, hc]

private theorem decimal_of_digits {ds r : List Char} (hd : ∀ c ∈ ds, c.isDigit = true)
    (hr : ∀ c ∈ r.head?, endsNumber c = true) : Lexer.numberText.decimal (ds ++ r) = ds := by
  have hd' : ∀ c ∈ ds, Lexer.isDigitOrBar c = true := fun c hc => by
    simp [Lexer.isDigitOrBar, hd c hc]
  have hr' : ∀ c ∈ r.head?, Lexer.isDigitOrBar c = false := fun c hc =>
    isDigitOrBar_of_endsNumber (hr c hc)
  have hp : ∀ r', r ≠ '.' :: r' := by
    rintro r' rfl
    exact absurd (hr _ rfl) (by decide)
  simp only [Lexer.numberText.decimal, takeWhile_append_of_head hd' hr',
    dropWhile_append_of_head hd' hr']
  rw [exponent_of_head hr, List.append_nil, List.append_nil]

private theorem numberText_of_digits {ds r : List Char} (hd : ∀ c ∈ ds, c.isDigit = true)
    (hr : ∀ c ∈ r.head?, endsNumber c = true) : Lexer.numberText (ds ++ r) = ds := by
  rw [Lexer.numberText.eq_def]
  split
  next b s he =>
    -- what follows a leading zero is a digit or ends the number, so it is no base
    have hb : b.isDigit = true ∨ endsNumber b = true := by
      match ds, he with
      | [], he => exact absurd (hr '0' (by rw [← List.nil_append r, he]; rfl)) (by decide)
      | [_], he =>
        simp only [List.cons_append, List.nil_append, List.cons.injEq] at he
        exact .inr (hr b (by rw [he.2]; rfl))
      | _ :: b' :: _, he =>
        simp only [List.cons_append, List.cons.injEq] at he
        exact .inl (he.2.1 ▸ hd b' (by simp))
    have hb' : b ∉ ['x', 'X', 'o', 'O', 'b', 'B'] := by
      simp only [List.mem_cons, List.not_mem_nil, or_false]
      rintro (rfl | rfl | rfl | rfl | rfl | rfl) <;> revert hb <;> decide
    rw [if_neg hb']
    exact decimal_of_digits hd hr
  next => exact decimal_of_digits hd hr

private theorem toList_toString (n : Nat) : (toString n).toList = Nat.toDigits 10 n := by
  rw [Nat.toString_eq_repr, Nat.repr_eq_ofList_toDigits, String.toList_ofList]

private theorem isDigit_of_mem_toString {n : Nat} {c : Char} (h : c ∈ (toString n).toList) :
    c.isDigit = true :=
  Nat.isDigit_of_mem_toDigits (by decide) (by decide) (toList_toString n ▸ h)

/-- A whole number is written as a number. -/
theorem isNumeral_toString (n : Nat) : IsNumeral (toString n) where
  head := by
    cases h : (toString n).toList with
    | nil => exact absurd (toList_toString n ▸ h) Nat.toDigits_ne_nil
    | cons c cs => exact ⟨c, cs, rfl, isDigit_of_mem_toString (by rw [h]; exact List.mem_cons_self)⟩
  last c hc := isDigit_of_mem_toString (List.mem_of_getLast? hc)
  chars c hc := by simp [isNameChar_of_isDigit (isDigit_of_mem_toString hc)]
  numberText _ hr := numberText_of_digits (fun _ hc => isDigit_of_mem_toString hc) hr

namespace Literal

private theorem digitValue_digitChar {d : Nat} (h : d < 10) : digitValue d.digitChar = d := by
  have hall : ∀ d < 10, digitValue (Nat.digitChar d) = d := by decide
  exact hall d h

/-- The digits of a number write it. -/
theorem ofDigits?_toDigits (n : Nat) : ofDigits? 10 (Nat.toDigits 10 n) = some n := by
  have hne : (Nat.toDigits 10 n).isEmpty = false :=
    List.isEmpty_eq_false_iff.2 Nat.toDigits_ne_nil
  rw [ofDigits?, hne, if_neg (by decide)]
  clear hne
  induction n using Nat.strongRecOn with
  | ind n ih =>
    by_cases h : n < 10
    · have hd := digitValue_digitChar h
      rw [Nat.toDigits_of_lt_base h]
      simp [hd, h]
    · have hlt : n % 10 < 10 := Nat.mod_lt n (by decide)
      have hd := digitValue_digitChar hlt
      rw [Nat.toDigits_of_base_le (by decide) (by omega), List.foldlM_append,
        ih (n / 10) (by omega)]
      have he : n / 10 * 10 + n % 10 = n := by omega
      simp [hd, hlt, he]

/-- A digit has no other case. -/
theorem toLower_of_isDigit {c : Char} (h : c.isDigit = true) : c.toLower = c := by
  simp only [Char.isDigit, Bool.and_eq_true, decide_eq_true_eq, ge_iff_le] at h
  have hu : ¬ (c.val ≥ 'A'.val ∧ c.val ≤ 'Z'.val) := fun hc =>
    absurd (UInt32.le_trans hc.1 h.2) (by decide)
  exact dif_neg hu

/-- A whole number is the value of its text. -/
theorem number?_toString {n : Nat} (h : n < limit64) :
    number? (toString n).toList = some (.int n) := by
  have hd : ∀ c ∈ (toString n).toList, c.isDigit = true := fun c hc => isDigit_of_mem_toString hc
  have hs : ((toString n).toList.filter (· ≠ '_')).map Char.toLower = Nat.toDigits 10 n := by
    have hf : (toString n).toList.filter (· ≠ '_') = (toString n).toList :=
      List.filter_eq_self.2 fun c hc => by simpa using isDigit_ne (hd c hc) (x := '_') (by decide)
    rw [hf, toList_toString]
    rw [toList_toString] at hd
    exact List.map_congr_left (fun c hc => toLower_of_isDigit (hd c hc)) |>.trans (List.map_id _)
  have hw : whole? 10 (Nat.toDigits 10 n) = some (.int n) := by
    rw [whole?, ofDigits?_toDigits]
    simp [h]
  rw [toList_toString] at hd
  unfold number?
  simp only [hs]
  split
  next ds he => exact absurd (hd 'x' (by rw [he]; simp)) (by decide)
  next ds he => exact absurd (hd 'o' (by rw [he]; simp)) (by decide)
  next ds he => exact absurd (hd 'b' (by rw [he]; simp)) (by decide)
  next =>
    have hp : ((Nat.toDigits 10 n).contains '.' || (Nat.toDigits 10 n).contains 'e') = false := by
      rw [← Bool.not_eq_true, Bool.or_eq_true, List.contains_iff_mem, List.contains_iff_mem]
      rintro (hm | hm)
      · exact absurd (hd _ hm) (by decide)
      · exact absurd (hd _ hm) (by decide)
    rw [hp]
    exact hw
/-- The inside of a quoted comment is the comment. -/
theorem unescape_quoteComment (s : List Char) : unescape (Paragraph.quoteComment s) = s := by
  induction s with
  | nil => rfl
  | cons c cs ih =>
    have he : Paragraph.quoteComment (c :: cs) =
        (if c = '\\' ∨ c = '"' then ['\\', c] else [c]) ++ Paragraph.quoteComment cs := rfl
    rw [he]
    split
    next hc =>
      rcases hc with rfl | rfl
      · simp [unescape, unescapeChar?, ih]
      · simp [unescape, unescapeChar?, ih]
    next hc =>
      rw [List.cons_append, List.nil_append, unescape_cons (fun h => hc (.inl h)), ih]

end Literal

/-- What is known of a number with a fraction that can be written: its text is read as itself. -/
structure Binary64.IsWritten (x : Binary64) : Prop where
  /-- It is written as a number. -/
  numeral : IsNumeral (DecimalStyle.literal.write x)
  /-- Its text has its value. -/
  value : Literal.number? (DecimalStyle.literal.write x).toList = some (.float x)

/-- Where no number with a fraction may occur, each that may is read as itself. -/
theorem Binary64.isWritten_of_none (x : Binary64) (h : (fun _ : Binary64 => false) x = true) :
    x.IsWritten :=
  absurd h Bool.false_ne_true

end ValidUsage
