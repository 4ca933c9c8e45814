import Mathlib.Data.List.Basic
import ValidUsage.Text.Search

/-!
# What a search passes over

A search passes over a text in front of another when no occurrence of the pattern starts in it, not
even one that ends in what follows. It then finds what it would find in the rest alone.
-/

namespace ValidUsage.Text

variable {pat new a b r : List Char}

/-- Whether no occurrence of a pattern starts in a text that another text follows. -/
def Passes (pat : List Char) : List Char → List Char → Prop
  | [], _ => True
  | c :: a, r => ¬pat <+: c :: (a ++ r) ∧ Passes pat a r

/-- No occurrence starts in two texts when none starts in either. -/
theorem passes_append : Passes pat (a ++ b) r ↔ Passes pat a (b ++ r) ∧ Passes pat b r := by
  induction a with
  | nil => simp only [List.nil_append, Passes, true_and]
  | cons c a ih => simp only [List.cons_append, Passes, ih, List.append_assoc, and_assoc]

/-- A text without the first character of the pattern is passed over. -/
theorem Passes.of_notMem {c : Char} (h : c ∉ a) : Passes (c :: pat) a r := by
  induction a with
  | nil => trivial
  | cons x a ih =>
    refine ⟨?_, ih fun hc => h (List.mem_cons_of_mem x hc)⟩
    intro hp
    obtain rfl : c = x := (List.cons_prefix_cons.1 hp).1
    exact h List.mem_cons_self

/-- An occurrence that starts in a text is in it, or the text is part of the occurrence. -/
theorem prefix_append_cases (h : pat <+: a ++ r) :
    pat <:+: a ∨ ∃ x t, pat = a ++ x :: t ∧ r.head? = some x := by
  rcases List.prefix_or_prefix_of_prefix h (List.prefix_append a r) with hp | ⟨t, rfl⟩
  · exact .inl hp.isInfix
  · cases t with
    | nil =>
      rw [List.append_nil]
      exact .inl (List.infix_refl a)
    | cons x t =>
      obtain ⟨s, hs⟩ := (List.prefix_append_right_inj a).1 h
      exact .inr ⟨x, t, rfl, by rw [← hs]; rfl⟩

/-- A text without the pattern is passed over when nothing inside of the pattern follows it. -/
theorem Passes.of_head (h : ¬pat <:+: a) (hr : ∀ c ∈ r.head?, c ∉ pat.tail) : Passes pat a r := by
  induction a with
  | nil => trivial
  | cons c a ih =>
    refine ⟨?_, ih fun hi => h (hi.trans (List.suffix_cons c a).isInfix)⟩
    intro hp
    rcases prefix_append_cases (a := c :: a) hp with hi | ⟨x, t, rfl, hx⟩
    · exact h hi
    · exact hr x hx (List.mem_append_right a List.mem_cons_self)

/-- A text without the pattern is passed over when it ends in nothing that the pattern goes on
after. -/
theorem Passes.of_last (h : ¬pat <:+: a) (ha : ∀ c ∈ a.getLast?, c ∉ pat.dropLast) :
    Passes pat a r := by
  induction a with
  | nil => trivial
  | cons c a ih =>
    constructor
    · intro hp
      rcases prefix_append_cases (a := c :: a) hp with hi | ⟨x, t, rfl, -⟩
      · exact h hi
      · have hlast := List.getLast?_eq_some_getLast (List.cons_ne_nil c a)
        refine ha _ hlast ?_
        rw [List.dropLast_append_of_ne_nil (List.cons_ne_nil x t)]
        exact List.mem_append_left _ (List.getLast_mem _)
    · refine ih (fun hi => h (hi.trans (List.suffix_cons c a).isInfix)) fun x hx => ha x ?_
      rw [List.getLast?_cons, Option.mem_def.1 hx]
      rfl

/-! ## Searching -/

/-- A text in which no occurrence starts is passed over. -/
theorem breakOn_append (h : Passes pat a r) :
    breakOn pat (a ++ r) = (breakOn pat r).map fun x => (a ++ x.1, x.2) := by
  induction a with
  | nil => simp
  | cons c a ih =>
    rw [List.cons_append, breakOn, if_neg (mt List.isPrefixOf_iff_prefix.1 h.1), ih h.2,
      Option.map_map]
    rfl

/-- An occurrence at the front is the first one. -/
theorem breakOn_pattern_append (pat r : List Char) : breakOn pat (pat ++ r) = some ([], r) := by
  cases pat with
  | nil => cases r <;> rfl
  | cons c pat =>
    have hp : (c :: pat).isPrefixOf (c :: (pat ++ r)) = true :=
      List.isPrefixOf_iff_prefix.2 (List.prefix_append (c :: pat) r)
    rw [List.cons_append, breakOn, if_pos hp, ← List.cons_append, List.drop_left]

/-- The first occurrence is the one behind a text that the search passes over. -/
theorem breakOn_append_pattern (h : Passes pat a (pat ++ r)) :
    breakOn pat (a ++ (pat ++ r)) = some (a, r) := by
  rw [breakOn_append h, breakOn_pattern_append, Option.map_some, List.append_nil]

/-! ## Replacing -/

/-- A text in which no occurrence starts stays as it is. -/
theorem replaceAll_append (h : Passes pat a r) :
    replaceAll pat new (a ++ r) = a ++ replaceAll pat new r := by
  induction a with
  | nil => rfl
  | cons c a ih =>
    rw [List.cons_append, replaceAll, if_neg (mt List.isPrefixOf_iff_prefix.1 h.1), ih h.2,
      List.cons_append]

/-- An occurrence at the front is replaced. -/
theorem replaceAll_pattern_append (hne : pat ≠ []) :
    replaceAll pat new (pat ++ r) = new ++ replaceAll pat new r := by
  cases pat with
  | nil => exact absurd rfl hne
  | cons c pat =>
    have hp : (c :: pat).isPrefixOf (c :: (pat ++ r)) = true :=
      List.isPrefixOf_iff_prefix.2 (List.prefix_append (c :: pat) r)
    rw [List.cons_append, replaceAll, if_pos hp, List.length_cons, Nat.add_sub_cancel,
      List.drop_left]

/-! ## Splitting -/

/-- A text without the separator is one piece. -/
theorem splitOn_of_notMem {sep : Char} (h : sep ∉ a) : splitOn sep a = [a] := by
  induction a with
  | nil => rfl
  | cons c a ih =>
    rw [List.mem_cons, not_or] at h
    rw [splitOn, if_neg (Ne.symm h.1), ih h.2]

/-- The pieces of two texts with a separator between them are those of each. -/
theorem splitOn_append_cons (sep : Char) (a b : List Char) :
    splitOn sep (a ++ sep :: b) = splitOn sep a ++ splitOn sep b := by
  induction a with
  | nil => simp [splitOn]
  | cons c a ih =>
    rw [List.cons_append, splitOn, splitOn, ih]
    by_cases hc : c = sep
    · rw [if_pos hc, if_pos hc, List.cons_append]
    · rw [if_neg hc, if_neg hc]
      cases hs : splitOn sep a with
      | nil => exact absurd hs (splitOn_ne_nil sep a)
      | cons piece pieces => rfl

/-- Pieces that are put together come apart again. -/
theorem splitOn_join {sep : Char} {pieces : List (List Char)} (hne : pieces ≠ [])
    (h : ∀ piece ∈ pieces, sep ∉ piece) : splitOn sep (join [sep] pieces) = pieces := by
  induction pieces with
  | nil => exact absurd rfl hne
  | cons p ps ih =>
    have hp := splitOn_of_notMem (h p List.mem_cons_self)
    cases ps with
    | nil => simpa [join, List.intercalate] using hp
    | cons q ps =>
      rw [join_cons (List.cons_ne_nil q ps), List.append_assoc, List.singleton_append,
        splitOn_append_cons, hp, ih (List.cons_ne_nil q ps) fun piece hq =>
          h piece (List.mem_cons_of_mem _ hq)]
      rfl

end ValidUsage.Text
