import ValidUsage.Text.Blank

/-!
# Trimming

Trimming at one end leaves the other end alone, and trimming what is trimmed changes nothing.
-/

namespace ValidUsage.Text

/-- Blanks at the front of a text are dropped. -/
theorem trimStart_append {u : List Char} (h : ∀ c ∈ u, isBlank c = true) (s : List Char) :
    trimStart (u ++ s) = trimStart s := by
  induction u with
  | nil => rfl
  | cons c u ih =>
    rw [List.cons_append, trimStart, List.dropWhile_cons, if_pos (h c List.mem_cons_self)]
    exact ih fun c hc => h c (List.mem_cons_of_mem _ hc)

/-- A text that starts with something besides a blank is kept. -/
theorem trimStart_cons {c : Char} (h : isBlank c = false) (s : List Char) :
    trimStart (c :: s) = c :: s := by
  simp [trimStart, h]

/-- Blanks at the end of a text are dropped. -/
theorem trimEnd_append {u : List Char} (h : ∀ c ∈ u, isBlank c = true) (s : List Char) :
    trimEnd (s ++ u) = trimEnd s := by
  have hu : ∀ c ∈ u.reverse, isBlank c = true := fun c hc => h c (List.mem_reverse.1 hc)
  rw [trimEnd, trimEnd, List.reverse_append]
  exact congrArg List.reverse (trimStart_append hu s.reverse)

/-- A text that ends with something besides a blank is kept. -/
theorem trimEnd_concat {c : Char} (h : isBlank c = false) (s : List Char) :
    trimEnd (s ++ [c]) = s ++ [c] := by
  simp [trimEnd, h]

@[simp] theorem trimStart_nil : trimStart [] = [] := rfl

@[simp] theorem trimEnd_nil : trimEnd [] = [] := rfl

/-- What is left of a text that is trimmed at its end, with the blanks behind it, is the text. -/
theorem exists_trimEnd (s : List Char) :
    ∃ u, s = trimEnd s ++ u ∧ ∀ c ∈ u, isBlank c = true := by
  refine ⟨(s.reverse.takeWhile isBlank).reverse, ?_, fun c hc => ?_⟩
  · have h := List.takeWhile_append_dropWhile (p := isBlank) (l := s.reverse)
    have h := congrArg List.reverse h
    rw [List.reverse_append, List.reverse_reverse] at h
    exact h.symm
  · exact List.all_eq_true.1 List.all_takeWhile c (List.mem_reverse.1 hc)

/-- A text that is trimmed at its end is empty or does not end with a blank. -/
theorem trimEnd_eq_nil_or_concat (s : List Char) :
    trimEnd s = [] ∨ ∃ r c, trimEnd s = r ++ [c] ∧ isBlank c = false := by
  cases hd : s.reverse.dropWhile isBlank with
  | nil => exact .inl (by simp [trimEnd, hd])
  | cons c r =>
    refine .inr ⟨r.reverse, c, by simp [trimEnd, hd], ?_⟩
    have := List.head?_dropWhile_not isBlank s.reverse
    rw [hd] at this
    simpa using this

@[simp] theorem trimEnd_trimEnd (s : List Char) : trimEnd (trimEnd s) = trimEnd s := by
  rcases trimEnd_eq_nil_or_concat s with h | ⟨r, c, h, hc⟩
  · rw [h, trimEnd_nil]
  · rw [h, trimEnd_concat hc]

/-- Without the blanks at its front a text does not start with one. -/
theorem head?_trimStart (s : List Char) : ∀ c ∈ (trimStart s).head?, isBlank c = false := by
  intro c hc
  have := List.head?_dropWhile_not isBlank s
  rw [show (s.dropWhile isBlank).head? = some c from hc] at this
  simpa using this

@[simp] theorem trimStart_trimStart (s : List Char) : trimStart (trimStart s) = trimStart s := by
  cases h : trimStart s with
  | nil => rfl
  | cons c r => exact trimStart_cons (head?_trimStart s c (by rw [h]; rfl)) r

/-- Trimming at the end takes away everything or leaves the start alone. -/
theorem head?_trimEnd (s : List Char) : ∀ c ∈ (trimEnd s).head?, s.head? = some c := by
  intro c hc
  obtain ⟨u, he, -⟩ := exists_trimEnd s
  cases ht : trimEnd s with
  | nil => simp [ht] at hc
  | cons c' r =>
    obtain rfl : c' = c := by simpa [ht] using hc
    rw [he, ht]
    rfl

@[simp] theorem trim_trim (s : List Char) : trim (trim s) = trim s := by
  have hstart : trimStart (trimEnd (trimStart s)) = trimEnd (trimStart s) := by
    cases h : trimEnd (trimStart s) with
    | nil => rfl
    | cons c r =>
      have hc := head?_trimEnd (trimStart s) c (by rw [h]; rfl)
      exact trimStart_cons (head?_trimStart s c hc) r
  rw [trim, trim, hstart, trimEnd_trimEnd]

/-- Blanks at the end are trimmed away. -/
theorem trim_append {u : List Char} (h : ∀ c ∈ u, isBlank c = true) (s : List Char) :
    trim (s ++ u) = trim s := by
  have hu : trimStart u = [] := by
    have := trimStart_append h []
    rwa [List.append_nil] at this
  rw [trim, trim, trimStart, List.dropWhile_append, ← trimStart, ← trimStart]
  split
  · rename_i hs
    rw [hu, List.isEmpty_iff.1 hs]
  · exact trimEnd_append h _

@[simp] theorem trim_trimEnd (s : List Char) : trim (trimEnd s) = trim s := by
  obtain ⟨u, he, hu⟩ := exists_trimEnd s
  exact ((congrArg trim he).trans (trim_append hu _)).symm

/-- A text without the blanks at its front is the end of it. -/
theorem trimStart_suffix (s : List Char) : trimStart s <:+ s := List.dropWhile_suffix _

/-- A text without the blanks at its end is the front of it. -/
theorem trimEnd_prefix_self (s : List Char) : trimEnd s <+: s := by
  obtain ⟨u, he, -⟩ := exists_trimEnd s
  exact ⟨u, he.symm⟩

/-- A text without the blanks around it stands in it. -/
theorem trim_infix (s : List Char) : trim s <:+: s :=
  (trimEnd_prefix_self (trimStart s)).isInfix.trans (trimStart_suffix s).isInfix

/-- A text with a character that is not blank is not trimmed away. -/
theorem trim_ne_nil {s : List Char} {c : Char} (hc : c ∈ s) (h : isBlank c = false) :
    trim s ≠ [] := by
  intro he
  obtain ⟨u, hu, hblank⟩ := exists_trimEnd (trimStart s)
  rw [← trim, he, List.nil_append] at hu
  rw [← lead_append_trimStart s, hu] at hc
  rcases List.mem_append.1 hc with hc | hc
  · exact absurd (List.all_eq_true.1 List.all_takeWhile c hc) (by simp [h])
  · exact absurd (hblank c hc) (by simp [h])

end ValidUsage.Text
