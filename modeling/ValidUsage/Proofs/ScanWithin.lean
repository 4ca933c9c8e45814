import ValidUsage.Proofs.KeepComments
import ValidUsage.Proofs.ReadShape

/-!
# Scanning within a line

What the lexer takes off a line does not depend on what follows the end of the line, nor on the
indentations that are open. Line by line it finds the brackets and the ends of strings where they
are found without it, unless a string goes on behind the end of a line.
-/

namespace ValidUsage
namespace Paragraph

/-- How a line ends. -/
inductive LineEnd where
  /-- The line ends outside of strings. -/
  | plain
  /-- A backslash joins the next line. -/
  | joined
  /-- The line ends in a string. -/
  | inString
  deriving DecidableEq, Repr

/-- How a line ends that starts in a string with a quote, or outside of strings. Outside of strings
and comments a backslash only stands at the end of a line. -/
def lineEnd (quote : Option Char) : List Char → LineEnd
  | [] => if quote.isSome then .inString else .plain
  | c :: r =>
    match quote with
    | some q =>
      if c = '\\' then
        match r with
        | [] => .inString
        | _ :: r' => lineEnd quote r'
      else if c = q then lineEnd none r
      else lineEnd quote r
    | none =>
      if c = '\'' ∨ c = '"' then lineEnd (some c) r
      else if c = '#' then .plain
      else if c = '\\' then .joined
      else lineEnd none r

/-- Whether a character is neutral and no backslash. -/
def isInner (c : Char) : Bool := isNeutral c && c != '\\'

private theorem lineEnd_cons {c : Char} (h : isInner c = true) (s : List Char) :
    lineEnd none (c :: s) = lineEnd none s := by
  simp only [isInner, isNeutral, List.contains_eq_mem, List.mem_cons, List.not_mem_nil, or_false,
    Bool.and_eq_true, Bool.not_eq_true', decide_eq_false_iff_not, not_or, bne_iff_ne] at h
  obtain ⟨⟨h₁, h₂, h₃, -⟩, h₄⟩ := h
  rw [lineEnd]
  simp only [h₁, h₂, h₃, h₄, or_self, if_false]

/-- Neutral characters do not change how a line ends. -/
theorem lineEnd_append {s : List Char} (h : ∀ c ∈ s, isInner c = true) (r : List Char) :
    lineEnd none (s ++ r) = lineEnd none r := by
  induction s with
  | nil => rfl
  | cons c s ih =>
    rw [List.cons_append, lineEnd_cons (h c List.mem_cons_self)]
    exact ih fun c hc => h c (List.mem_cons_of_mem _ hc)

/-- Nor do they count as brackets. -/
theorem bracketDepth_inner {s : List Char} (h : ∀ c ∈ s, isInner c = true) (d : Nat)
    (r : List Char) : bracketDepth none d (s ++ r) = bracketDepth none d r :=
  bracketDepth_append (fun c hc => (Bool.and_eq_true_iff.1 (h c hc)).1) d r

private theorem isInner_of_isNameChar {c : Char} (h : Text.isNameChar c = true) :
    isInner c = true := by
  rw [isInner, isNeutral_of_isNameChar h, Bool.true_and, bne_iff_ne]
  rintro rfl
  exact absurd h (by decide)

end Paragraph

namespace Lexer

open Paragraph

section Text

variable {p : Char → Bool} {r : List Char}

/-- What is read off the front of a line by its characters ends with the line. -/
theorem takeWhile_line (hp : p '\n' = false) (hr : EndsLine r) (s : List Char) :
    (s ++ r).takeWhile p = s.takeWhile p := by
  induction s with
  | nil =>
    cases r with
    | nil => rfl
    | cons c r =>
      obtain rfl : c = '\n' := hr c rfl
      simp [hp]
  | cons c s ih => simp only [List.cons_append, List.takeWhile_cons, ih]

private theorem dropWhile_line (hp : p '\n' = false) (hr : EndsLine r) (s : List Char) :
    (s ++ r).dropWhile p = s.dropWhile p ++ r := by
  induction s with
  | nil =>
    cases r with
    | nil => rfl
    | cons c r =>
      obtain rfl : c = '\n' := hr c rfl
      simp [hp]
  | cons c s ih =>
    simp only [List.cons_append, List.dropWhile_cons, ih]
    split <;> rfl

end Text

/-! ## Numbers -/

/-- A character of a number. -/
def isNumberChar (c : Char) : Bool := Text.isNameChar c || ['.', '+', '-'].contains c

private theorem isInner_of_isNumberChar {c : Char} (h : isNumberChar c = true) :
    isInner c = true := by
  simp only [isNumberChar, Bool.or_eq_true, List.contains_iff_mem, List.mem_cons,
    List.not_mem_nil, or_false] at h
  rcases h with h | rfl | rfl | rfl
  · exact isInner_of_isNameChar h
  all_goals decide

/-- Whether a text is the front of another one and has the characters of numbers. -/
structure IsNumberPart (t s : List Char) : Prop where
  pre : t <+: s
  chars : ∀ c ∈ t, isNumberChar c = true

private theorem isNumberPart_takeWhile {p : Char → Bool}
    (hp : ∀ c, p c = true → isNumberChar c = true)
    (s : List Char) : IsNumberPart (s.takeWhile p) s :=
  ⟨List.takeWhile_prefix p, fun c hc => hp c (List.all_eq_true.1 List.all_takeWhile c hc)⟩

/-- A character of numbers in front of both makes the front longer. -/
theorem IsNumberPart.cons {c : Char} {t s : List Char} (h : IsNumberPart t s)
    (hc : isNumberChar c = true) : IsNumberPart (c :: t) (c :: s) :=
  ⟨List.cons_prefix_cons.2 ⟨rfl, h.pre⟩, List.forall_mem_cons.2 ⟨hc, h.chars⟩⟩

/-- The characters of numbers behind a front of one make it longer. -/
theorem IsNumberPart.append {t t' s : List Char} (h : IsNumberPart t s)
    (h' : IsNumberPart t' (s.drop t.length)) : IsNumberPart (t ++ t') s := by
  refine ⟨?_, fun c hc => (List.mem_append.1 hc).elim (h.chars c) (h'.chars c)⟩
  obtain ⟨u, rfl⟩ := h.pre
  have hp := h'.pre
  rw [List.drop_left] at hp
  exact (List.prefix_append_right_inj t).2 hp

private theorem isNumberChar_of_isDigitOrBar {c : Char} (h : isDigitOrBar c = true) :
    isNumberChar c = true := by
  simp only [isDigitOrBar, Bool.or_eq_true, beq_iff_eq] at h
  simp only [isNumberChar, Text.isNameChar, Char.isAlphanum, Bool.or_eq_true, beq_iff_eq]
  rcases h with h | h
  · exact .inl (.inl (.inr h))
  · exact .inl (.inr h)

/-- Behind the longest front with a property stands what follows it. -/
theorem drop_length_takeWhile (p : Char → Bool) (s : List Char) :
    s.drop (s.takeWhile p).length = s.dropWhile p := by
  have h : (s.takeWhile p ++ s.dropWhile p).drop (s.takeWhile p).length = s.dropWhile p :=
    List.drop_left
  rwa [List.takeWhile_append_dropWhile] at h

private theorem isNumberPart_exponent (s : List Char) : IsNumberPart (numberText.exponent s) s := by
  unfold numberText.exponent
  split
  · rename_i e r
    split
    · rename_i he
      have he : isNumberChar e = true := by rcases he with rfl | rfl <;> decide
      split
      · rename_i sign r'
        split
        · rename_i hsign
          have hsign : isNumberChar sign = true := by rcases hsign with rfl | rfl <;> decide
          have hdigits := isNumberPart_takeWhile (fun _ => isNumberChar_of_isDigitOrBar) r'
          exact (hdigits.cons hsign).cons he
        · exact (isNumberPart_takeWhile (fun _ => isNumberChar_of_isDigitOrBar) _).cons he
      · exact .cons ⟨List.nil_prefix, nofun⟩ he
    · exact ⟨List.nil_prefix, nofun⟩
  · exact ⟨List.nil_prefix, nofun⟩

private theorem isNumberPart_decimal (s : List Char) : IsNumberPart (numberText.decimal s) s := by
  have digits := isNumberPart_takeWhile (fun _ => isNumberChar_of_isDigitOrBar)
  have hwhole := digits s
  simp only [numberText.decimal]
  split
  · rename_i r hr
    rw [List.append_assoc]
    refine hwhole.append ?_
    rw [drop_length_takeWhile, hr]
    refine ((digits r).cons (by decide)).append ?_
    rw [List.length_cons, List.drop_succ_cons, drop_length_takeWhile]
    exact isNumberPart_exponent _
  · rw [List.append_nil]
    refine hwhole.append ?_
    rw [drop_length_takeWhile]
    exact isNumberPart_exponent _

private theorem isNumberChar_of_isHexDigit {c : Char} (h : isHexDigit c = true) :
    isNumberChar c = true := by
  simp only [isHexDigit, Char.isDigit, Bool.or_eq_true, Bool.and_eq_true, decide_eq_true_eq,
    ge_iff_le, Char.le_def, UInt32.le_iff_toNat_le] at h
  simp only [isNumberChar, Text.isNameChar, Char.isAlphanum, isAlpha_eq, Char.isDigit,
    Bool.or_eq_true, Bool.and_eq_true, decide_eq_true_eq, ge_iff_le, UInt32.le_iff_toNat_le]
  have hf : 'f'.val.toNat ≤ 'z'.val.toNat := by decide
  have hF : 'F'.val.toNat ≤ 'Z'.val.toNat := by decide
  rcases h with (h | h) | h
  · exact .inl (.inl (.inr h))
  · exact .inl (.inl (.inl (.inr ⟨h.1, Nat.le_trans h.2 hf⟩)))
  · exact .inl (.inl (.inl (.inl ⟨h.1, Nat.le_trans h.2 hF⟩)))

private theorem isNumberPart_numberText (s : List Char) : IsNumberPart (numberText s) s := by
  unfold numberText
  split
  · rename_i b r
    split
    · rename_i hb
      refine ((isNumberPart_takeWhile (fun c hc => ?_) r).cons ?_).cons (by decide)
      · rcases Bool.or_eq_true_iff.1 hc with hc | hc
        · exact isNumberChar_of_isHexDigit hc
        · obtain rfl := eq_of_beq hc
          decide
      · simp only [List.mem_cons, List.not_mem_nil, or_false] at hb
        rcases hb with rfl | rfl | rfl | rfl | rfl | rfl <;> decide
    · exact isNumberPart_decimal _
  · exact isNumberPart_decimal _

section Line

variable {r : List Char} (hr : EndsLine r)

include hr

private theorem exponent_line (s : List Char) :
    numberText.exponent (s ++ r) = numberText.exponent s := by
  have hend (c : Char) (h : c ∈ r.head?) : ¬(c = 'e' ∨ c = 'E') ∧ ¬(c = '+' ∨ c = '-') := by
    obtain rfl := hr c h
    decide
  match s with
  | [] =>
    cases r with
    | nil => rfl
    | cons c r =>
      simp only [List.nil_append, numberText.exponent, (hend c rfl).1, if_false]
  | [e] =>
    have hdigits := takeWhile_line (p := isDigitOrBar) (by decide) hr []
    cases r with
    | nil => rfl
    | cons c r =>
      rw [List.nil_append] at hdigits
      simp only [List.cons_append, List.nil_append, numberText.exponent, (hend c rfl).2, if_false,
        hdigits]
      rfl
  | e :: sign :: s =>
    simp only [List.cons_append, numberText.exponent]
    have h₁ := takeWhile_line (p := isDigitOrBar) (by decide) hr s
    have h₂ := takeWhile_line (p := isDigitOrBar) (by decide) hr (sign :: s)
    rw [List.cons_append] at h₂
    rw [h₁, h₂]

private theorem decimal_line (s : List Char) :
    numberText.decimal (s ++ r) = numberText.decimal s := by
  have hwhole := takeWhile_line (p := isDigitOrBar) (by decide) hr s
  have hrest := dropWhile_line (p := isDigitOrBar) (by decide) hr s
  by_cases hpoint : ∃ s', s.dropWhile isDigitOrBar = '.' :: s'
  · obtain ⟨s', hs'⟩ := hpoint
    rw [hs', List.cons_append] at hrest
    rw [decimal_of_point hs', decimal_of_point hrest, hwhole, takeWhile_line (by decide) hr,
      dropWhile_line (by decide) hr, exponent_line hr]
  · have hs (s' : List Char) : s.dropWhile isDigitOrBar ≠ '.' :: s' := fun he => hpoint ⟨s', he⟩
    rw [decimal_of_no_point hs, decimal_of_no_point, hwhole, hrest, exponent_line hr]
    intro s' he
    rw [hrest] at he
    cases hd : s.dropWhile isDigitOrBar with
    | nil =>
      rw [hd, List.nil_append] at he
      exact absurd (hr '.' (by rw [he]; rfl)) (by decide)
    | cons c s'' =>
      rw [hd, List.cons_append] at he
      exact hs s'' (by rw [hd, (List.cons.inj he).1])

private theorem numberText_line {s : List Char} (hs : s ≠ []) :
    numberText (s ++ r) = numberText s := by
  by_cases hbase : ∃ b s', s = '0' :: b :: s' ∧ b ∈ bases
  · obtain ⟨b, s', rfl, hb⟩ := hbase
    rw [List.cons_append, List.cons_append, numberText_of_base hb, numberText_of_base hb,
      takeWhile_line (by decide) hr]
  · have hno (b : Char) (s' : List Char) (he : s = '0' :: b :: s') : b ∉ bases :=
      fun hb => hbase ⟨b, s', he, hb⟩
    rw [numberText_of_no_base hno, numberText_of_no_base, decimal_line hr]
    intro b s' he
    match s with
    | [] => exact absurd rfl hs
    | [c] =>
      simp only [List.cons_append, List.nil_append, List.cons.injEq] at he
      obtain rfl := hr b (by rw [he.2]; rfl)
      decide
    | c :: b' :: s =>
      simp only [List.cons_append, List.cons.injEq] at he
      exact hno b s (by rw [he.1, he.2.1])

end Line

/-! ## Strings -/

/-- A string that is closed on its line ends where the line leaves it. -/
theorem closeQuote?_line {q : Char} (s : List Char) (hs : '\n' ∉ s)
    (h : lineEnd (some q) s ≠ .inString) : ∃ t v, s = t ++ v ∧
      (∀ r, closeQuote? q (s ++ r) = some (t, v ++ r)) ∧
      lineEnd (some q) s = lineEnd none v ∧
      ∀ d, bracketDepth (some q) d s = bracketDepth none d v := by
  cases s with
  | nil => exact absurd rfl h
  | cons c s =>
    have hn : c ≠ '\n' := fun he => hs (he ▸ List.mem_cons_self)
    have hline : '\n' ∉ s := fun hm => hs (List.mem_cons_of_mem _ hm)
    by_cases hb : c = '\\'
    · subst hb
      cases s with
      | nil => exact absurd rfl h
      | cons c s =>
        obtain ⟨t, v, rfl, hclose, hend, hdepth⟩ := closeQuote?_line (q := q) s
          (fun hm => hline (List.mem_cons_of_mem _ hm)) h
        refine ⟨'\\' :: c :: t, v, rfl, fun r => ?_, hend, hdepth⟩
        rw [List.cons_append, List.cons_append, closeQuote?_backslash, hclose]
        rfl
    by_cases hq : c = q
    · subst hq
      refine ⟨[c], s, rfl, fun r => closeQuote?_close hb hn _, ?_, fun d => ?_⟩
      · rw [lineEnd.eq_def]
        simp only [hb, if_false, if_true]
      · rw [bracketDepth.eq_def]
        simp only [hb, if_false, if_true]
    · have he : lineEnd (some q) (c :: s) = lineEnd (some q) s := by
        rw [lineEnd.eq_def]
        simp only [hb, hq, if_false]
      rw [he] at h ⊢
      obtain ⟨t, v, rfl, hclose, hend, hdepth⟩ := closeQuote?_line (q := q) s hline h
      refine ⟨c :: t, v, rfl, fun r => ?_, hend, fun d => ?_⟩
      · rw [List.cons_append, closeQuote?_cons hb hn hq, hclose]
        rfl
      · rw [bracketDepth_quoted hb hq, hdepth]
termination_by s.length

/-! ## Operators -/

private theorem contains_take_line (ops : List String) (k : Nat)
    (hops : ∀ o ∈ ops.map String.toList, o.length = k ∧ '\n' ∉ o) {r : List Char}
    (hr : EndsLine r) (s : List Char) :
    ops.contains (String.ofList ((s ++ r).take k)) = ops.contains (String.ofList (s.take k)) := by
  rw [contains_ofList, contains_ofList]
  by_cases hk : k ≤ s.length
  · rw [List.take_append_of_le_length hk]
  cases r with
  | nil => rw [List.append_nil]
  | cons c r =>
    obtain rfl : c = '\n' := hr c rfl
    have hshort : ¬(ops.map String.toList).contains (s.take k) = true := fun hm => by
      have hlen := (hops _ (List.contains_iff_mem.1 hm)).1
      rw [List.length_take] at hlen
      omega
    have hlong : ¬(ops.map String.toList).contains ((s ++ '\n' :: r).take k) = true := fun hm => by
      refine (hops _ (List.contains_iff_mem.1 hm)).2 ?_
      refine List.mem_take_iff_getElem.2 ⟨s.length, ?_, ?_⟩
      · simp only [List.length_append, List.length_cons]
        omega
      · simp
    rw [Bool.not_eq_true] at hshort hlong
    rw [hshort, hlong]

/-- An operator ends with the line. -/
theorem operatorLength?_line {c : Char} {cs r : List Char} (hr : EndsLine r) :
    operatorLength? (c :: (cs ++ r)) = operatorLength? (c :: cs) := by
  have h₃ := contains_take_line operators₃ 3 (by decide) hr (c :: cs)
  have h₂ := contains_take_line operators₂ 2 (by decide) hr (c :: cs)
  rw [List.cons_append] at h₂ h₃
  unfold operatorLength?
  rw [h₂, h₃]

/-- The texts of the operators. -/
def operatorTexts : List (List Char) :=
  (operators₃ ++ operators₂).map String.toList ++ operators₁.map ([·])

/-- An operator that is found is one by its characters. -/
theorem operator_mem {c : Char} {cs : List Char} {n : Nat}
    (h : operatorLength? (c :: cs) = some n) :
    1 ≤ n ∧ n - 1 ≤ cs.length ∧ c :: cs.take (n - 1) ∈ operatorTexts := by
  have long {ops : List String} {k : Nat} (hk : 1 ≤ k)
      (hops : ∀ o ∈ ops.map String.toList, o.length = k) (hin : ops ⊆ operators₃ ++ operators₂)
      (hm : ops.contains (String.ofList ((c :: cs).take k)) = true) :
      1 ≤ k ∧ k - 1 ≤ cs.length ∧ c :: cs.take (k - 1) ∈ operatorTexts := by
    rw [contains_ofList, List.contains_iff_mem] at hm
    have hlen := hops _ hm
    obtain ⟨m, rfl⟩ : ∃ m, k = m + 1 := ⟨k - 1, by omega⟩
    rw [List.take_succ_cons] at hlen hm
    rw [List.length_cons, List.length_take] at hlen
    exact ⟨hk, by omega, List.mem_append_left _ (List.map_subset _ hin hm)⟩
  unfold operatorLength? at h
  split at h
  · rename_i hm
    obtain rfl := Option.some.inj h
    exact long (by decide) (by decide) (List.subset_append_left _ _) hm
  split at h
  · rename_i hm
    obtain rfl := Option.some.inj h
    exact long (by decide) (by decide) (List.subset_append_right _ _) hm
  dsimp only at h
  split at h
  · rename_i hm
    obtain rfl := Option.some.inj h
    refine ⟨by decide, Nat.zero_le _, List.mem_append_right _ ?_⟩
    exact List.mem_map_of_mem (f := fun c => [c]) (List.contains_iff_mem.1 hm)
  · exact absurd h nofun

/-- An operator is a bracket, or none of its characters is one. -/
theorem operator_chars {c : Char} {cs : List Char} {n : Nat}
    (h : operatorLength? (c :: cs) = some n) :
    n - 1 ≤ cs.length ∧ ((n = 1 ∧ c ∈ ['(', ')', '[', ']', '{', '}']) ∨
      ∀ x ∈ c :: cs.take (n - 1), isInner x = true) := by
  obtain ⟨hn, hlen, hm⟩ := operator_mem h
  have hall : operatorTexts.all (fun t => t.length == 1 &&
      t.all (['(', ')', '[', ']', '{', '}'].contains ·) || t.all isInner) = true := by
    decide +kernel
  replace hall : ∀ t ∈ operatorTexts,
      (t.length = 1 ∧ ∀ c ∈ t, c ∈ ['(', ')', '[', ']', '{', '}']) ∨ ∀ c ∈ t, isInner c = true :=
    fun t ht => by simpa using List.all_eq_true.1 hall t ht
  refine ⟨hlen, (hall _ hm).imp (fun ⟨h₁, h₂⟩ => ⟨?_, h₂ c List.mem_cons_self⟩) id⟩
  rw [List.length_cons, List.length_take] at h₁
  omega

/-! ## Steps -/

/-- What a step takes off a line that goes on with `cs`, and what it leaves of the line, whatever
the open indentations are and whatever follows the end of the line. -/
structure TakesAt (st : State) (c : Char) (cs : List Char) (toks : List Token) (st' : State)
    (v : List Char) : Prop where
  suffix : v <:+ cs
  kinds : ∀ t ∈ toks, t.kind.isLayout = false
  depth : bracketDepth none st.depth (c :: cs) = bracketDepth none st'.depth v
  ending : lineEnd none (c :: cs) = lineEnd none v
  content : st'.content = (st.content || !toks.isEmpty)
  lineStart : st'.lineStart = st.lineStart
  line : st'.pos.line = st.pos.line
  token (S : List Nat) (r : List Char) : EndsLine r →
    ∃ h, token { st with indents := S } c (cs ++ r) =
      .ok ⟨toks, { st' with indents := S }, v ++ r, h⟩

section Step

variable {st : State} {c : Char} {cs r : List Char}

/-- A step that takes a token of the line. -/
theorem takesAt_take (kind : TokenKind) {n d : Nat} (hk : kind.isLayout = false)
    (hn : n ≤ cs.length)
    (hdepth : bracketDepth none st.depth (c :: cs) = bracketDepth none d (cs.drop n))
    (hend : lineEnd none (c :: cs) = lineEnd none (cs.drop n))
    (htoken : ∀ (S : List Nat) (r : List Char), EndsLine r →
      Lexer.token { st with indents := S } c (cs ++ r) =
        .ok (take { st with indents := S, depth := d } kind c (cs ++ r) n)) :
    ∃ toks st' v, TakesAt st c cs toks st' v := by
  have htake (r : List Char) : (cs ++ r).take n = cs.take n := List.take_append_of_le_length hn
  have hdrop (r : List Char) : (cs ++ r).drop n = cs.drop n ++ r := List.drop_append_of_le_length hn
  refine ⟨[⟨kind, String.ofList (c :: cs.take n), st.pos⟩], { st with
    depth := d, pos := advance st.pos (1 + (cs.take n).length), content := true }, cs.drop n, {
    suffix := List.drop_suffix n cs
    kinds := fun t ht => List.mem_singleton.1 ht ▸ hk
    depth := hdepth
    ending := hend
    content := by simp
    lineStart := rfl
    line := rfl
    token := fun S r hr => ⟨?_, ?_⟩ }⟩
  · simp only [List.length_append, List.length_drop, List.length_cons]
    omega
  · rw [htoken S r hr]
    simp only [take, htake, hdrop]

/-- A step over a token none of whose characters counts for brackets or strings. -/
theorem takesAt_inner (kind : TokenKind) {n : Nat} (hk : kind.isLayout = false)
    (hn : n ≤ cs.length) (hinner : ∀ x ∈ c :: cs.take n, isInner x = true)
    (htoken : ∀ (S : List Nat) (r : List Char), EndsLine r →
      Lexer.token { st with indents := S } c (cs ++ r) =
        .ok (take { st with indents := S } kind c (cs ++ r) n)) :
    ∃ toks st' v, TakesAt st c cs toks st' v := by
  have hsplit : c :: cs = (c :: cs.take n) ++ cs.drop n := by simp
  refine takesAt_take kind (d := st.depth) hk hn ?_ ?_ htoken
  · conv_lhs => rw [hsplit]
    exact bracketDepth_inner hinner _ _
  · conv_lhs => rw [hsplit]
    exact lineEnd_append hinner _

/-- The characters of a number, by the length of its text. -/
theorem number_chars (hc : isNumberChar c = true) :
    (numberText (c :: cs)).length - 1 ≤ cs.length ∧
      ∀ x ∈ c :: cs.take ((numberText (c :: cs)).length - 1), isNumberChar x = true := by
  have hpart := isNumberPart_numberText (c :: cs)
  have hlen := hpart.pre.length_le
  rw [List.length_cons] at hlen
  refine ⟨by omega, ?_⟩
  obtain ⟨u, hu⟩ := hpart.pre
  cases ht : numberText (c :: cs) with
  | nil => simpa using hc
  | cons c' t =>
    rw [ht, List.cons_append, List.cons.injEq] at hu
    obtain ⟨rfl, rfl⟩ := hu
    rw [List.length_cons, Nat.add_sub_cancel, List.take_left]
    exact fun x hx => hpart.chars x (ht ▸ hx)

private theorem takesAt_number (hc : isNumberChar c = true) (hr : EndsLine r)
    {x : Step (c :: (cs ++ r))} (htoken : ∀ (st : State) (r : List Char),
      Lexer.token st c (cs ++ r) = number st c (cs ++ r))
    (h : Lexer.token st c (cs ++ r) = .ok x) : ∃ toks st' v, TakesAt st c cs toks st' v := by
  obtain ⟨hm, hchars⟩ := number_chars hc
  have hnumber (r : List Char) (hr : EndsLine r) :
      (numberText (c :: (cs ++ r))).length - 1 = (numberText (c :: cs)).length - 1 := by
    rw [← List.cons_append, numberText_line hr (List.cons_ne_nil c cs)]
  have hdrop (r : List Char) : (cs ++ r).drop ((numberText (c :: cs)).length - 1) =
      cs.drop ((numberText (c :: cs)).length - 1) ++ r := List.drop_append_of_le_length hm
  refine takesAt_inner .number rfl hm ?_ fun S r' hr' => ?_
  · exact fun x hx => isInner_of_isNumberChar (hchars x hx)
  · rw [htoken] at h ⊢
    unfold number at h ⊢
    dsimp only at h ⊢
    rw [hnumber r hr, hdrop] at h
    rw [hnumber r' hr', hdrop]
    cases hrest : cs.drop ((numberText (c :: cs)).length - 1) with
    | nil =>
      rw [List.nil_append]
      cases r' with
      | nil => rfl
      | cons c' r' =>
        obtain rfl : c' = '\n' := hr' c' rfl
        rfl
    | cons c' v =>
      rw [hrest, List.cons_append] at h
      simp only [List.cons_append] at h ⊢
      split at h
      · exact absurd h nofun
      · rename_i hname
        rw [if_neg hname]

private theorem bracketDepth_of_depthAfter (hquote : ¬(c = '\'' ∨ c = '"')) (hhash : c ≠ '#')
    {d d' : Nat}
    (h : depthAfter? c d = some d') : bracketDepth none d (c :: cs) = bracketDepth none d' cs := by
  rw [bracketDepth]
  simp only [hquote, hhash, if_false]
  unfold depthAfter? at h
  split at h
  · rename_i ho
    obtain rfl := Option.some.inj h
    rw [if_pos ho]
  rename_i ho
  rw [if_neg ho]
  split at h
  · rename_i hclose
    rw [if_pos hclose]
    split at h
    · cases h
    · obtain rfl := Option.some.inj h
      rfl
  · rename_i hclose
    obtain rfl := Option.some.inj h
    rw [if_neg hclose]

private theorem depthAfter_inner (hc : isInner c = true) {d d' : Nat}
    (h : depthAfter? c d = some d') :
    d' = d := by
  simp only [isInner, isNeutral, List.contains_eq_mem, List.mem_cons, List.not_mem_nil, or_false,
    Bool.and_eq_true, Bool.not_eq_true', decide_eq_false_iff_not, not_or] at hc
  obtain ⟨⟨-, -, -, h₁, h₂, h₃, h₄, h₅, h₆, -⟩, -⟩ := hc
  simpa [depthAfter?, h₁, h₂, h₃, h₄, h₅, h₆, eq_comm] using h

private theorem takesAt_blank (hblank : c = ' ' ∨ c = '\t' ∨ c = '\r' ∨ c = '\x0c') :
    ∃ toks st' v, TakesAt st c cs toks st' v := by
  have hinner : isInner c = true := by rcases hblank with rfl | rfl | rfl | rfl <;> decide
  have hc : c ≠ '\n' := by rcases hblank with rfl | rfl | rfl | rfl <;> decide
  refine ⟨[], { st with pos := advance st.pos 1 }, cs, {
    suffix := List.suffix_refl cs
    kinds := (by rintro _ ⟨⟩)
    depth := bracketDepth_cons (Bool.and_eq_true_iff.1 hinner).1 _ _
    ending := lineEnd_cons hinner _
    content := by simp
    lineStart := rfl
    line := rfl
    token := fun S r _ => ⟨Text.length_lt_cons c _, ?_⟩ }⟩
  simp only [Lexer.token, hc, hblank, if_false, if_true]

/-- A comment is left out up to the end of its line. -/
theorem takesAt_comment (hcs : '\n' ∉ cs) : ∃ toks st' v, TakesAt st '#' cs toks st' v := by
  have hall : ∀ c ∈ cs, decide (c ≠ '\n') = true := fun c hc =>
    decide_eq_true fun he => hcs (he ▸ hc)
  refine ⟨[], { st with pos := advance st.pos (1 + cs.length) }, [], {
    suffix := List.nil_suffix
    kinds := (by rintro _ ⟨⟩)
    depth := rfl
    ending := rfl
    content := by simp
    lineStart := rfl
    line := rfl
    token := fun S r hr => ⟨by
      rw [List.nil_append, List.length_cons, List.length_append]
      omega, ?_⟩ }⟩
  have hhash : ('#' : Char) ≠ '\n' := by decide
  have hblank : ¬('#' = ' ' ∨ '#' = '\t' ∨ '#' = '\r' ∨ '#' = '\x0c') := by decide
  have hend : ∀ c ∈ r.head?, decide (c ≠ '\n') = false := fun c hc => by simp [hr c hc]
  simp only [Lexer.token, hhash, hblank, if_false, if_true, takeWhile_append_of_head hall hend,
    dropWhile_append_of_head hall hend, List.nil_append]

private theorem takesAt_string (hquote : c = '\'' ∨ c = '"') (hcs : '\n' ∉ cs)
    (hopen : lineEnd none (c :: cs) ≠ .inString) : ∃ toks st' v, TakesAt st c cs toks st' v := by
  have hin : lineEnd none (c :: cs) = lineEnd (some c) cs := by rw [lineEnd, if_pos hquote]
  obtain ⟨t, v, rfl, hclose, hend, hdepth⟩ := closeQuote?_line cs hcs (hin ▸ hopen)
  have hlen : t.length ≤ (t ++ v).length := by simp
  refine takesAt_take .str (d := st.depth) rfl hlen ?_ ?_ fun S r _ => ?_
  · rw [List.drop_left, ← hdepth, bracketDepth, if_pos hquote]
  · rw [List.drop_left, hin, hend]
  · have hc : c ≠ '\n' ∧ c ≠ '#' ∧ c ≠ '\\' := by rcases hquote with rfl | rfl <;> decide
    have hblank : ¬(c = ' ' ∨ c = '\t' ∨ c = '\r' ∨ c = '\x0c') := by
      rcases hquote with rfl | rfl <;> decide
    simp only [Lexer.token, hc, hblank, hquote, if_false, if_true, hclose]

private theorem takesAt_name (hname : Text.isNameStart c = true) :
    ∃ toks st' v, TakesAt st c cs toks st' v := by
  have hlen := (List.takeWhile_prefix Text.isNameChar (l := cs)).length_le
  refine takesAt_inner .name rfl hlen ?_ fun S r hr => ?_
  · rw [← List.prefix_iff_eq_take.1 (List.takeWhile_prefix Text.isNameChar)]
    refine List.forall_mem_cons.2 ⟨?_, fun x hx => ?_⟩
    · exact isInner_of_isNameChar (isNameChar_of_isNameStart hname)
    · exact isInner_of_isNameChar (List.all_eq_true.1 List.all_takeWhile x hx)
  · rw [token_of_isNameStart hname, takeWhile_line (by decide) hr]

private theorem takesAt_operator (hquote : ¬(c = '\'' ∨ c = '"')) (hhash : c ≠ '#') (hb : c ≠ '\\')
    (hr : EndsLine r) {x : Step (c :: (cs ++ r))}
    (htoken : ∀ (st : State) (r : List Char), EndsLine r →
      Lexer.token st c (cs ++ r) = operator st c (cs ++ r))
    (h : Lexer.token st c (cs ++ r) = .ok x) : ∃ toks st' v, TakesAt st c cs toks st' v := by
  rw [htoken st r hr, operator, operatorLength?_line hr] at h
  cases hlen : operatorLength? (c :: cs) with
  | none =>
    rw [hlen] at h
    cases h
  | some n =>
    rw [hlen] at h
    dsimp only at h
    cases hd : depthAfter? c st.depth with
    | none =>
      rw [hd] at h
      cases h
    | some d =>
      obtain ⟨hn, hchars⟩ := operator_chars hlen
      have hstep (S : List Nat) (r : List Char) (hr : EndsLine r) :
          Lexer.token { st with indents := S } c (cs ++ r) =
            .ok (take { st with indents := S, depth := d } .op c (cs ++ r) (n - 1)) := by
        rw [htoken _ r hr, operator, operatorLength?_line hr, hlen]
        simp only [hd]
      rcases hchars with ⟨rfl, hbracket⟩ | hinner
      · have hskip : lineEnd none (c :: cs) = lineEnd none cs := by
          rw [lineEnd, if_neg hquote, if_neg hhash, if_neg hb]
        exact takesAt_take .op rfl hn (bracketDepth_of_depthAfter hquote hhash hd) hskip hstep
      · have hsame : d = st.depth := depthAfter_inner (hinner c List.mem_cons_self) hd
        subst hsame
        exact takesAt_inner .op rfl hn hinner hstep

private theorem head_isDigit_line (hr : EndsLine r) :
    (cs ++ r).head?.any Char.isDigit = cs.head?.any Char.isDigit := by
  cases cs with
  | cons c' cs => rfl
  | nil =>
    cases r with
    | nil => rfl
    | cons c' r =>
      obtain rfl : c' = '\n' := hr c' rfl
      rfl

/-- A step within a line takes what it takes without knowing what follows the line. -/
theorem takesAt_of_token (hn : '\n' ∉ c :: cs) (hr : EndsLine r)
    (hopen : lineEnd none (c :: cs) ≠ .inString) (hb : c ≠ '\\') {x : Step (c :: (cs ++ r))}
    (h : Lexer.token st c (cs ++ r) = .ok x) : ∃ toks st' v, TakesAt st c cs toks st' v := by
  have hc : c ≠ '\n' := fun he => hn (he ▸ List.mem_cons_self)
  have hcs : '\n' ∉ cs := fun hm => hn (List.mem_cons_of_mem _ hm)
  by_cases hblank : c = ' ' ∨ c = '\t' ∨ c = '\r' ∨ c = '\x0c'
  · exact takesAt_blank hblank
  by_cases hhash : c = '#'
  · subst hhash
    exact takesAt_comment hcs
  by_cases hquote : c = '\'' ∨ c = '"'
  · exact takesAt_string hquote hcs hopen
  by_cases hdigit : c.isDigit = true
  · have hnum : isNumberChar c = true := by
      simp [isNumberChar, Text.isNameChar, Char.isAlphanum, hdigit]
    exact takesAt_number hnum hr (fun st r => token_of_isDigit hdigit st _) h
  have hdigit : c.isDigit = false := Bool.eq_false_iff.2 hdigit
  by_cases hpoint : c = '.' ∧ cs.head?.any Char.isDigit = true
  · obtain ⟨rfl, hhead⟩ := hpoint
    refine takesAt_number (by decide) hr (fun st r => ?_) h
    have hhead : (cs ++ r).head?.any Char.isDigit = true := by
      cases cs with
      | nil => cases hhead
      | cons c' cs => exact hhead
    simp only [Lexer.token, hc, hblank, hhash, hb, hquote, hdigit, hhead, if_false, if_true,
      Bool.false_eq_true, and_self]
  by_cases hname : Text.isNameStart c = true
  · exact takesAt_name hname
  refine takesAt_operator hquote hhash hb hr (fun st r hr => ?_) h
  rw [← head_isDigit_line hr] at hpoint
  simp only [Lexer.token, hc, hblank, hhash, hb, hquote, hdigit, hpoint, hname, if_false,
    Bool.false_eq_true]

end Step

/-! ## Lines -/

/-- What is read of a line up to its end, or up to the backslash that joins the next line, whatever
the open indentations are and whatever follows the line. -/
structure TakesLine (st : State) (u : List Char) (toks : List Token) (st' : State)
    (v : List Char) : Prop where
  kinds : ∀ t ∈ toks, t.kind.isLayout = false
  depth : st'.depth = bracketDepth none st.depth u
  content : st'.content = (st.content || !toks.isEmpty)
  isInline : st'.IsInline
  line : st'.pos.line = st.pos.line
  ending : (lineEnd none u = .plain ∧ v = []) ∨
    (lineEnd none u = .joined ∧ (v = ['\\'] ∨ v = ['\\', '\r']))
  scan (S : List Nat) (r : List Char) : EndsLine r → scan { st with indents := S } (u ++ r) =
    (scan { st' with indents := S } (v ++ r)).map (toks ++ ·)

/-- Reading nothing of a line is a way to read it. -/
theorem TakesLine.nil {st : State} (h : st.IsInline) : TakesLine st [] [] st [] where
  kinds := nofun
  depth := rfl
  content := by simp
  isInline := h
  line := rfl
  ending := .inl ⟨rfl, rfl⟩
  scan S r _ := by
    cases Lexer.scan { st with indents := S } ([] ++ r) <;> rfl

/-- A backslash that joins no lines is a fault. -/
theorem token_backslash (st : State) {s : List Char} (h₁ : ∀ r, s ≠ '\n' :: r)
    (h₂ : ∀ r, s ≠ '\r' :: '\n' :: r) : token st '\\' s = fail .afterBackslash st.pos := by
  unfold token
  split
  · exact absurd ‹_› (by decide)
  split
  · exact absurd ‹_› (by decide)
  split
  · exact absurd ‹_› (by decide)
  rw [if_pos rfl]
  split
  · rename_i r
    exact absurd rfl (h₁ r)
  · rename_i r
    exact absurd rfl (h₂ r)
  · rfl

/-- Behind a backslash nothing is left of the line. -/
theorem rest_of_backslash {st : State} {cs r : List Char} (hcs : '\n' ∉ cs)
    {x : Step ('\\' :: (cs ++ r))} (h : token st '\\' (cs ++ r) = .ok x) :
    cs = [] ∨ cs = ['\r'] := by
  cases cs with
  | nil => exact .inl rfl
  | cons c cs =>
    have hc : c ≠ '\n' := fun he => hcs (he ▸ List.mem_cons_self)
    have hend : ∃ r', c :: cs ++ r = '\r' :: '\n' :: r' := by
      refine Classical.byContradiction fun hno => ?_
      rw [token_backslash] at h
      · exact absurd h nofun
      · exact fun r' he => hc (List.cons.inj he).1
      · exact fun r' he => hno ⟨r', he⟩
    obtain ⟨r', he⟩ := hend
    cases cs with
    | nil =>
      simp only [List.cons_append, List.cons.injEq] at he
      exact .inr (by rw [he.1])
    | cons c' cs =>
      simp only [List.cons_append, List.cons.injEq] at he
      exact absurd (List.mem_cons_of_mem _ (he.2.1 ▸ List.mem_cons_self)) hcs

/-- What succeeds when its result is changed succeeds before. -/
theorem ok_of_map {α β ε : Type} {x : Except ε α} {f : α → β} {b : β} (h : x.map f = .ok b) :
    ∃ a, x = .ok a ∧ f a = b := by
  cases x with
  | error e => exact absurd h nofun
  | ok a => exact ⟨a, rfl, Except.ok.inj h⟩

/-- A line that is read is read up to its end. -/
theorem takesLine_of_scan (u : List Char) {r : List Char} {st : State} (hu : '\n' ∉ u)
    (hr : EndsLine r) (hi : st.IsInline) (hopen : lineEnd none u ≠ .inString) {ts : List Token}
    (h : scan st (u ++ r) = .ok ts) : ∃ toks st' v, TakesLine st u toks st' v := by
  cases u with
  | nil => exact ⟨[], st, [], .nil hi⟩
  | cons c cs =>
    have hcs : '\n' ∉ cs := fun hm => hu (List.mem_cons_of_mem _ hm)
    rw [List.cons_append, scan_cons hi] at h
    obtain ⟨x, hx, h⟩ := Parser.ok_of_bind h
    by_cases hb : c = '\\'
    · subst hb
      have hv := rest_of_backslash hcs hx
      refine ⟨[], st, '\\' :: cs, {
        kinds := nofun
        depth := ?_
        content := by simp
        isInline := hi
        line := rfl
        ending := .inr ⟨rfl, ?_⟩
        scan := fun S r _ => ?_ }⟩
      · rcases hv with rfl | rfl <;> rfl
      · rcases hv with rfl | rfl
        · exact .inl rfl
        · exact .inr rfl
      · cases Lexer.scan { st with indents := S } ('\\' :: cs ++ r) <;> rfl
    · obtain ⟨toks, st₁, v, htakes⟩ := takesAt_of_token hu hr hopen hb hx
      obtain ⟨hlt, htoken⟩ := htakes.token st.indents r hr
      rw [htoken] at hx
      obtain rfl := Except.ok.inj hx
      have hv : '\n' ∉ v := fun hm => hcs (htakes.suffix.subset hm)
      have hi₁ : State.IsInline { st₁ with indents := st.indents } := .inl htakes.lineStart
      have hshort : v.length < cs.length + 1 := Nat.lt_succ_of_le htakes.suffix.length_le
      obtain ⟨ts₁, hts₁, -⟩ := ok_of_map h
      obtain ⟨toks', st', w, hline⟩ :=
        takesLine_of_scan v hv hr hi₁ (htakes.ending ▸ hopen) hts₁
      refine ⟨toks ++ toks', st', w, {
        kinds := fun t ht => (List.mem_append.1 ht).elim (htakes.kinds t) (hline.kinds t)
        depth := hline.depth.trans htakes.depth.symm
        content := ?_
        isInline := hline.isInline
        line := hline.line.trans htakes.line
        ending := htakes.ending ▸ hline.ending
        scan := fun S r' hr' => ?_ }⟩
      · rw [hline.content, htakes.content]
        cases st.content <;> cases toks <;> cases toks' <;> rfl
      · obtain ⟨hlt', htoken'⟩ := htakes.token S r' hr'
        rw [List.cons_append, scan_cons (show State.IsInline { st with indents := S } from hi),
          htoken']
        simp only [Except.bind]
        rw [hline.scan S r' hr']
        cases Lexer.scan { st' with indents := S } (w ++ r') with
        | error e => rfl
        | ok ts => simp [Except.map]
termination_by u.length

end Lexer
end ValidUsage
