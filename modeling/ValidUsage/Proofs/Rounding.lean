import Mathlib.Algebra.Order.Field.Power
import Mathlib.Data.Rat.Cast.Order
import Mathlib.Tactic.FieldSimp
import Mathlib.Tactic.Linarith
import Mathlib.Tactic.NormNum
import Mathlib.Tactic.Ring
import ValidUsage.Number.Decimal

/-!
# The nearest double-precision number

Rounding depends on the value that is rounded and not on how it is written as a fraction, and a
number is nearest to itself. So a decimal is read as the same number when zeros move between its
digits and its exponent, and the decimal that a number is written with is read as the number.
-/

namespace ValidUsage.Binary64

/-- Whether a number is not negative, and in the form that rounding gives it: its significand has 53
bits, or fewer at the least exponent. -/
def isCanonical (x : Binary64) : Bool :=
  !x.neg && x.mant < Nat.pow 2 53 && minExp ≤ x.exp && x.exp ≤ maxExp &&
    (x.exp = minExp || Nat.pow 2 52 ≤ x.mant)

/-- The value of a number. -/
def value (x : Binary64) : ℚ := x.mant * 2 ^ x.exp

/-- Whether an exponent is the least one, from the least of all numbers on, at which a value has a
whole part of at most 53 bits. -/
structure IsExponent (v : ℚ) (e : Int) : Prop where
  least : minExp ≤ e
  fits : v < 2 ^ (e + 53)
  needed : e = minExp ∨ 2 ^ (e + 52) ≤ v

variable {v : ℚ} {e e' : Int} {num den num' den' : Nat} {neg : Bool} {x : Binary64}

/-- A number is canonical when it has no sign and its digits and exponent are in range, with all
digits in use unless the exponent is the least. -/
theorem isCanonical_iff : x.isCanonical = true ↔ x.neg = false ∧ x.mant < 2 ^ 53 ∧ minExp ≤ x.exp ∧
    x.exp ≤ maxExp ∧ (x.exp = minExp ∨ 2 ^ 52 ≤ x.mant) := by
  simp [isCanonical, and_assoc]

/-! ## The exponent -/

/-- The exponent of a number is no larger than one at which the number fits. -/
theorem IsExponent.le_of_lt (h : IsExponent v e) (h' : v < 2 ^ (e' + 53)) (hl : minExp ≤ e') :
    e ≤ e' := by
  rcases h.needed with rfl | hneeded
  · exact hl
  · have hlt : e + 52 < e' + 53 := (zpow_lt_zpow_iff_right₀ one_lt_two).1 (hneeded.trans_lt h')
    omega

/-- A value has one exponent. -/
theorem IsExponent.unique (h : IsExponent v e) (h' : IsExponent v e') : e = e' :=
  le_antisymm (h.le_of_lt h'.fits h'.least) (h'.le_of_lt h.fits h.least)

/-- A scaled fraction has the value of the fraction divided by the power of two. -/
theorem scale_value (num : Nat) (hd : 0 < den) (e : Int) : 0 < (scale num den e).2 ∧
    ((scale num den e).1 : ℚ) / (scale num den e).2 = num / den / 2 ^ e := by
  unfold scale
  split
  · rename_i he
    obtain ⟨k, rfl⟩ := Int.eq_ofNat_of_zero_le he
    refine ⟨Nat.mul_pos hd (Nat.two_pow_pos _), ?_⟩
    simp [div_div]
  · rename_i he
    obtain ⟨k, hk⟩ := Int.eq_ofNat_of_zero_le (show 0 ≤ -e by omega)
    obtain rfl : e = -(k : Int) := by omega
    refine ⟨hd, ?_⟩
    simp [div_eq_mul_inv, mul_right_comm]

private theorem div_lt_two_pow_iff {n d k : Nat} (hd : 0 < d) :
    n / d < 2 ^ k ↔ (n : ℚ) / d < 2 ^ k := by
  rw [Nat.div_lt_iff_lt_mul hd, div_lt_iff₀ (by exact_mod_cast hd)]
  exact_mod_cast Iff.rfl

private theorem scale_lt_iff (num : Nat) (hd : 0 < den) (e : Int) (k : Nat) :
    (scale num den e).1 / (scale num den e).2 < 2 ^ k ↔ (num : ℚ) / den < 2 ^ (e + k) := by
  obtain ⟨hpos, hv⟩ := scale_value num hd e
  rw [div_lt_two_pow_iff hpos, hv, div_lt_iff₀ (by positivity), zpow_add₀ two_ne_zero, mul_comm,
    zpow_natCast]

/-- The numbers of bits of a fraction enclose its value. -/
theorem value_bounds (hn : 0 < num) (hd : 0 < den) :
    (2 : ℚ) ^ ((num.log2 : Int) - den.log2 - 1) ≤ num / den ∧
      (num : ℚ) / den < 2 ^ ((num.log2 : Int) - den.log2 + 1) := by
  have hnl : ((2 ^ num.log2 : Nat) : ℚ) ≤ num := by exact_mod_cast Nat.log2_self_le hn.ne'
  have hnu : (num : ℚ) < ((2 ^ (num.log2 + 1) : Nat) : ℚ) := by exact_mod_cast Nat.lt_log2_self
  have hdl : ((2 ^ den.log2 : Nat) : ℚ) ≤ den := by exact_mod_cast Nat.log2_self_le hd.ne'
  have hdu : (den : ℚ) < ((2 ^ (den.log2 + 1) : Nat) : ℚ) := by exact_mod_cast Nat.lt_log2_self
  have hpos : (0 : ℚ) < den := by exact_mod_cast hd
  push_cast at hnl hnu hdl hdu
  have hlow : ((num.log2 : Int) - den.log2 - 1) = num.log2 - ((den.log2 + 1 : Nat) : Int) := by
    push_cast
    omega
  have hhigh : ((num.log2 : Int) - den.log2 + 1) = ((num.log2 + 1 : Nat) : Int) - den.log2 := by
    push_cast
    omega
  constructor
  · rw [le_div_iff₀ hpos, hlow, zpow_sub₀ two_ne_zero, zpow_natCast, zpow_natCast,
      div_mul_eq_mul_div, div_le_iff₀ (by positivity)]
    exact mul_le_mul hnl hdu.le hpos.le (hnl.trans' (by positivity))
  · rw [div_lt_iff₀ hpos, hhigh, zpow_sub₀ two_ne_zero, zpow_natCast, zpow_natCast,
      div_mul_eq_mul_div, lt_div_iff₀ (by positivity)]
    exact mul_lt_mul hnu hdl (by positivity) (by positivity)

/-- The exponent that a fraction is rounded at is the exponent of its value. -/
theorem isExponent_exponentOf (hn : 0 < num) (hd : 0 < den) :
    IsExponent (num / den) (exponentOf num den) := by
  obtain ⟨hlow, hhigh⟩ := value_bounds hn hd
  have hscale := scale_lt_iff num hd (max minExp ((num.log2 : Int) - den.log2 - 53)) 53
  unfold exponentOf
  dsimp only
  generalize hk : (num.log2 : Int) - den.log2 = k at *
  split
  · rename_i hlt
    refine ⟨le_max_left _ _, hscale.1 hlt, ?_⟩
    by_cases hle : k - 53 ≤ minExp
    · exact .inl (max_eq_left hle)
    · refine .inr ?_
      rw [max_eq_right (by omega)]
      exact hlow.trans' (zpow_le_zpow_right₀ one_le_two (by omega))
  · rename_i hge
    refine ⟨(le_max_left minExp (k - 53)).trans (by omega), ?_, .inr ?_⟩
    · exact hhigh.trans_le (zpow_le_zpow_right₀ one_le_two
        (by have := le_max_right minExp (k - 53); omega))
    · have hle := not_lt.1 fun h => hge (hscale.2 h)
      exact hle.trans' (zpow_le_zpow_right₀ one_le_two (by push_cast; omega))

/-! ## Rounding -/

private theorem roundHalfEven_mul_right {n d k : Nat} (hk : 0 < k) :
    roundHalfEven (n * k) (d * k) = roundHalfEven n d := by
  unfold roundHalfEven
  dsimp only
  rw [Nat.mul_div_mul_right _ _ hk, Nat.mul_mod_mul_right, ← Nat.mul_assoc]
  simp only [Nat.mul_lt_mul_right hk]

/-- Rounding depends on the value of the fraction alone. -/
theorem roundHalfEven_congr {n d n' d' : Nat} (hd : 0 < d) (hd' : 0 < d')
    (h : (n : ℚ) / d = n' / d') : roundHalfEven n d = roundHalfEven n' d' := by
  have hcross : n * d' = n' * d := by
    rw [div_eq_div_iff (by positivity) (by positivity)] at h
    exact_mod_cast h
  rw [← roundHalfEven_mul_right hd', hcross, Nat.mul_comm d d', roundHalfEven_mul_right hd]

private theorem roundHalfEven_one (m : Nat) : roundHalfEven m 1 = m := by
  simp [roundHalfEven, Nat.mod_one]

private theorem roundHalfEven_bounds (n d : Nat) : n / d ≤ roundHalfEven n d ∧
    roundHalfEven n d ≤ n / d + 1 := by
  unfold roundHalfEven
  dsimp only
  split
  · omega
  split
  · omega
  split <;> omega

/-- The number nearest to a fraction depends on its value alone. -/
theorem ofFraction_congr (hn : 0 < num) (hd : 0 < den) (hn' : 0 < num') (hd' : 0 < den')
    (h : (num : ℚ) / den = num' / den') (neg : Bool) :
    ofFraction neg num den = ofFraction neg num' den' := by
  have he : exponentOf num den = exponentOf num' den' := by
    refine (isExponent_exponentOf hn hd).unique ?_
    rw [h]
    exact isExponent_exponentOf hn' hd'
  have hround : ∀ e, roundHalfEven (scale num den e).1 (scale num den e).2 =
      roundHalfEven (scale num' den' e).1 (scale num' den' e).2 := by
    intro e
    obtain ⟨hpos, hv⟩ := scale_value num hd e
    obtain ⟨hpos', hv'⟩ := scale_value num' hd' e
    exact roundHalfEven_congr hpos hpos' (by rw [hv, hv', h])
  unfold ofFraction
  dsimp only
  rw [he, hround]

/-- A number that is rounded to is canonical. -/
theorem isCanonical_of_ofFraction (hn : 0 < num) (hd : 0 < den)
    (h : ofFraction false num den = some x) : x.isCanonical = true := by
  have hexp := isExponent_exponentOf hn hd
  have hscale := scale_lt_iff num hd (exponentOf num den)
  obtain ⟨hge, hle⟩ := roundHalfEven_bounds (scale num den (exponentOf num den)).1
    (scale num den (exponentOf num den)).2
  unfold ofFraction at h
  dsimp only at h
  generalize exponentOf num den = e at *
  generalize (scale num den e).1 / (scale num den e).2 = q at *
  generalize roundHalfEven (scale num den e).1 (scale num den e).2 = m at *
  have hq : q < 2 ^ 53 := (hscale 53).2 hexp.fits
  have hleast := hexp.least
  rw [isCanonical_iff]
  by_cases hm : m = Nat.pow 2 53
  · rw [if_pos hm] at h
    obtain ⟨hmax, he⟩ := Option.ite_none_right_eq_some.1 h
    obtain rfl := Option.some.inj he
    exact ⟨rfl, show Nat.pow 2 52 < 2 ^ 53 by decide, show minExp ≤ e + 1 by omega, hmax,
      .inr (le_refl (2 ^ 52))⟩
  · rw [if_neg hm] at h
    obtain ⟨hmax, he⟩ := Option.ite_none_right_eq_some.1 h
    obtain rfl := Option.some.inj he
    have hm : m ≠ 2 ^ 53 := hm
    refine ⟨rfl, by simp only; omega, hleast, hmax, ?_⟩
    refine hexp.needed.imp_right fun hneeded => ?_
    have hq52 : ¬q < 2 ^ 52 := fun hlt => absurd ((hscale 52).1 hlt) (not_lt.2 hneeded)
    simp only
    omega

/-- A number is nearest to its own value. -/
theorem ofFraction_value (hx : x.isCanonical = true) (hn : 0 < num) (hd : 0 < den)
    (hv : (num : ℚ) / den = x.value) : ofFraction x.neg num den = some x := by
  obtain ⟨-, hfits, hleast, hmax, hneeded⟩ := isCanonical_iff.1 hx
  have hpow : ∀ k : Nat, (2 : ℚ) ^ (x.exp + k) = ((2 ^ k : Nat) : ℚ) * 2 ^ x.exp := by
    intro k
    rw [zpow_add₀ two_ne_zero, mul_comm, zpow_natCast]
    push_cast
    rfl
  have hexp : exponentOf num den = x.exp := by
    refine (isExponent_exponentOf hn hd).unique ⟨hleast, ?_, hneeded.imp_right fun h => ?_⟩
    · rw [hv, value, show x.exp + 53 = x.exp + (53 : Nat) from rfl, hpow]
      exact mul_lt_mul_of_pos_right (by exact_mod_cast hfits) (by positivity)
    · rw [hv, value, show x.exp + 52 = x.exp + (52 : Nat) from rfl, hpow]
      exact mul_le_mul_of_nonneg_right (by exact_mod_cast h) (by positivity)
  obtain ⟨hpos, hscale⟩ := scale_value num hd x.exp
  have hround : roundHalfEven (scale num den x.exp).1 (scale num den x.exp).2 = x.mant := by
    rw [← roundHalfEven_one x.mant]
    refine roundHalfEven_congr hpos one_pos ?_
    rw [hscale, hv, value, mul_div_assoc, div_self (by positivity)]
    simp
  have hne : ¬x.mant = Nat.pow 2 53 := by
    have : Nat.pow 2 53 = 2 ^ 53 := rfl
    omega
  unfold ofFraction
  dsimp only
  rw [hexp, hround, if_neg hne]
  dsimp only
  rw [if_pos hmax]

/-! ## Decimals -/

private theorem digitCount_le_iff {n k : Nat} (hk : 0 < k) : digitCount n ≤ k ↔ n < 10 ^ k :=
  Nat.length_toDigits_le_iff (by decide) hk

private theorem digitCount_tenfold {n : Nat} (hn : n ≠ 0) :
    digitCount (10 * n) = digitCount n + 1 := by
  have h := Nat.toDigits_of_base_le (b := 10) (n := 10 * n) (by decide) (by omega)
  rw [digitCount, h, List.length_append, Nat.mul_div_cancel_left n (by decide)]
  rfl

/-- A decimal that is not zero is read as the number nearest to its value, if it is neither too
large nor too small. -/
theorem ofDecimal_eq {n : Nat} (hn : n ≠ 0) (neg : Bool) (e : Int) : ∃ num den : Nat, 0 < num ∧
    0 < den ∧ (num : ℚ) / den = n * 10 ^ e ∧ ofDecimal neg n e =
      if 310 < digitCount n + e then none
      else if digitCount n + e < -330 then some (zero neg)
      else ofFraction neg num den := by
  have hpos : 0 < n := Nat.pos_of_ne_zero hn
  by_cases he : 0 ≤ e
  · obtain ⟨k, rfl⟩ := Int.eq_ofNat_of_zero_le he
    refine ⟨n * 10 ^ k, 1, by positivity, one_pos, by simp, ?_⟩
    unfold ofDecimal
    rw [if_neg hn]
    dsimp only
    rw [if_pos he]
    rfl
  · obtain ⟨k, hk⟩ := Int.eq_ofNat_of_zero_le (show 0 ≤ -e by omega)
    obtain rfl : e = -(k : Int) := by omega
    refine ⟨n, 10 ^ k, hpos, by positivity, by simp [div_eq_mul_inv], ?_⟩
    unfold ofDecimal
    rw [if_neg hn]
    dsimp only
    rw [if_neg he, neg_neg]
    rfl

/-- A zero may move from the digits to the exponent. -/
theorem ofDecimal_tenfold (neg : Bool) (n : Nat) (e : Int) :
    ofDecimal neg (10 * n) e = ofDecimal neg n (e + 1) := by
  by_cases hn : n = 0
  · subst hn
    rfl
  · obtain ⟨num, den, hnum, hden, hv, h⟩ := ofDecimal_eq (n := 10 * n) (by omega) neg e
    obtain ⟨num', den', hnum', hden', hv', h'⟩ := ofDecimal_eq hn neg (e + 1)
    have hcount : ((digitCount (10 * n) : Nat) : Int) + e = digitCount n + (e + 1) := by
      rw [digitCount_tenfold hn]
      push_cast
      omega
    have hvalue : (num : ℚ) / den = num' / den' := by
      rw [hv, hv', zpow_add_one₀ (by norm_num)]
      push_cast
      ring
    rw [h, h', hcount, ofFraction_congr hnum hden hnum' hden' hvalue]

/-- Zeros at the end of a decimal number count as a larger exponent. -/
theorem ofDecimal_tenfolds (neg : Bool) (n : Nat) (e : Int) (k : Nat) :
    ofDecimal neg (n * 10 ^ k) e = ofDecimal neg n (e + k) := by
  induction k generalizing e with
  | zero => simp
  | succ k ih =>
    rw [Nat.pow_succ, Nat.mul_comm, Nat.mul_assoc, Nat.mul_left_comm, ofDecimal_tenfold,
      Nat.mul_comm, ih]
    congr 1
    push_cast
    omega

/-- What a decimal is read as is canonical. -/
theorem isCanonical_of_ofDecimal {n : Nat} (h : ofDecimal false n e = some x) :
    x.isCanonical = true := by
  have hzero : (zero false).isCanonical = true := by decide
  by_cases hn : n = 0
  · rw [ofDecimal, if_pos hn] at h
    exact Option.some.inj h ▸ hzero
  · obtain ⟨num, den, hnum, hden, -, he⟩ := ofDecimal_eq hn false e
    rw [he] at h
    split at h
    · exact absurd h nofun
    split at h
    · exact Option.some.inj h ▸ hzero
    · exact isCanonical_of_ofFraction hnum hden h

/-- A zero has one form. -/
theorem eq_zero_of_isCanonical (hx : x.isCanonical = true) (hm : x.mant = 0) : x = zero false := by
  obtain ⟨hneg, -, -, -, hneeded⟩ := isCanonical_iff.1 hx
  have he : x.exp = minExp := hneeded.resolve_right (by omega)
  rw [zero, ← hneg, ← hm, ← he]

/-- A decimal with the value of a number is read as the number, if it is neither too large nor too
small. -/
theorem ofDecimal_value (hx : x.isCanonical = true) {n : Nat} (hn : n ≠ 0)
    (hv : (n : ℚ) * 10 ^ e = x.value) (hle : digitCount n + e ≤ 310)
    (hge : -330 ≤ digitCount n + e) : ofDecimal x.neg n e = some x := by
  obtain ⟨num, den, hnum, hden, hvalue, h⟩ := ofDecimal_eq hn x.neg e
  rw [h, if_neg (by omega), if_neg (by omega)]
  exact ofFraction_value hx hnum hden (hvalue.trans hv)

/-- All digits of a number are read as the number. -/
theorem readsBack_exact (hx : x.isCanonical = true) (hm : x.mant ≠ 0) :
    x.readsBack x.exact = true := by
  obtain ⟨-, hfits, hleast, hmax, -⟩ := isCanonical_iff.1 hx
  rw [readsBack, beq_iff_eq]
  unfold exact
  split
  · rename_i he
    obtain ⟨k, hk⟩ := Int.eq_ofNat_of_zero_le he
    have hk971 : k ≤ 971 := by
      rw [hk] at hmax
      exact Int.ofNat_le.1 hmax
    have hlt : x.mant * 2 ^ k < 10 ^ 309 := by
      calc x.mant * 2 ^ k < 2 ^ 53 * 2 ^ 971 :=
            Nat.mul_lt_mul_of_lt_of_le hfits (Nat.pow_le_pow_right (by decide) hk971)
              (by positivity)
        _ ≤ 10 ^ 309 := by decide +kernel
    have hcount : digitCount (x.mant * 2 ^ k) ≤ 309 := (digitCount_le_iff (by decide)).2 hlt
    rw [hk]
    refine ofDecimal_value hx (Nat.mul_ne_zero hm (Nat.two_pow_pos k).ne') ?_ ?_ ?_
    · show ((x.mant * 2 ^ k : Nat) : ℚ) * 10 ^ (0 : Int) = x.value
      rw [value, hk]
      simp
    · show ((digitCount (x.mant * 2 ^ k) : Nat) : Int) + 0 ≤ 310
      omega
    · show (-330 : Int) ≤ (digitCount (x.mant * 2 ^ k) : Nat) + 0
      omega
  · rename_i he
    obtain ⟨k, hk⟩ := Int.eq_ofNat_of_zero_le (show 0 ≤ -x.exp by omega)
    have hexp : x.exp = -(k : Int) := by omega
    have hk1074 : k ≤ 1074 := by
      rw [minExp] at hleast
      omega
    have hhigh : x.mant * 5 ^ k < 10 ^ (k + 16) := by
      calc x.mant * 5 ^ k < 10 ^ 16 * 10 ^ k :=
            Nat.mul_lt_mul_of_lt_of_le (hfits.trans (by norm_num))
              (Nat.pow_le_pow_left (by decide) k) (by positivity)
        _ = 10 ^ (k + 16) := by rw [← Nat.pow_add, Nat.add_comm]
    have hcount : digitCount (x.mant * 5 ^ k) ≤ k + 16 := (digitCount_le_iff (by omega)).2 hhigh
    have hlow : k ≤ digitCount (x.mant * 5 ^ k) + 330 := by
      by_contra hlt
      have hfew : digitCount (x.mant * 5 ^ k) ≤ k - 331 := by omega
      have hpos : 0 < k - 331 := by
        have : 0 < digitCount (x.mant * 5 ^ k) := Nat.length_toDigits_pos
        omega
      have hbelow := (digitCount_le_iff hpos).1 hfew
      have habove : 10 ^ (k - 331) ≤ x.mant * 5 ^ k := by
        calc 10 ^ (k - 331) = 2 ^ (k - 331) * 5 ^ (k - 331) := by rw [← Nat.mul_pow]
          _ ≤ 5 ^ 331 * 5 ^ (k - 331) := by
              refine Nat.mul_le_mul_right _ ?_
              exact (Nat.pow_le_pow_right (by decide) (show k - 331 ≤ 743 by omega)).trans
                (by decide +kernel)
          _ = 5 ^ k := by
              rw [← Nat.pow_add, Nat.add_sub_cancel' (by omega)]
          _ ≤ x.mant * 5 ^ k := Nat.le_mul_of_pos_left _ (Nat.pos_of_ne_zero hm)
      omega
    rw [hexp, neg_neg]
    refine ofDecimal_value hx (Nat.mul_ne_zero hm (Nat.pow_pos (by decide)).ne') ?_ ?_ ?_
    · show ((x.mant * 5 ^ k : Nat) : ℚ) * 10 ^ (-(k : Int)) = x.value
      have hten : (10 : ℚ) ^ k = 2 ^ k * 5 ^ k := by rw [← mul_pow]; norm_num
      rw [value, hexp, zpow_neg, zpow_neg, zpow_natCast, zpow_natCast, hten]
      push_cast
      field_simp
    · show ((digitCount (x.mant * 5 ^ k) : Nat) : Int) + -(k : Int) ≤ 310
      omega
    · show (-330 : Int) ≤ (digitCount (x.mant * 5 ^ k) : Nat) + -(k : Int)
      omega

private theorem readsBack_of_onGrid? {t : Bool} {k : Int} {d : Decimal}
    (h : x.onGrid? t k = some d) :
    x.readsBack d = true := by
  unfold onGrid? at h
  dsimp only at h
  generalize (if 0 ≤ k then _ else _) = f at h
  split at h
  · exact absurd h nofun
  · rename_i hbelow habove
    exact Option.some.inj h ▸ hbelow
  · rename_i hbelow habove
    exact Option.some.inj h ▸ habove
  · rename_i hbelow habove
    split at h
    · exact Option.some.inj h ▸ hbelow
    split at h
    · exact Option.some.inj h ▸ hbelow
    · exact Option.some.inj h ▸ habove

private theorem readsBack_trimZeros (d : Decimal) : x.readsBack d.trimZeros = x.readsBack d := by
  fun_induction Decimal.trimZeros d with
  | case1 d h ih =>
    have hten : 10 * (d.digits / 10) = d.digits := by omega
    rw [ih, readsBack, readsBack, ← ofDecimal_tenfold, hten]
  | case2 => rfl

/-- The decimal of fewest digits is read as the number. -/
theorem readsBack_shortest (hx : x.isCanonical = true) (hm : x.mant ≠ 0) (t : Bool) :
    x.readsBack (x.shortest t) = true := by
  unfold shortest
  dsimp only
  rw [readsBack_trimZeros]
  cases hfound : (List.range 17).findSome? _ with
  | none => exact readsBack_exact hx hm
  | some d =>
    obtain ⟨k, -, hk⟩ := List.exists_of_findSome?_eq_some hfound
    exact readsBack_of_onGrid? hk

end ValidUsage.Binary64
