/-!
# Finding and replacing substrings

Searches run from left to right and take the first occurrence; replacements do not overlap and are
not searched again.
-/

namespace ValidUsage.Text

/-- The text after a leading `pat`, if `pat` leads it. -/
def stripPrefix? (pat s : List Char) : Option (List Char) :=
  if pat.isPrefixOf s then some (s.drop pat.length) else none

/-- What is left behind a leading `pat` makes up the text with it. -/
theorem stripPrefix?_eq_some {pat s r : List Char} :
    stripPrefix? pat s = some r ↔ s = pat ++ r := by
  unfold stripPrefix?
  constructor
  · intro h
    split at h
    · rename_i hpre
      obtain ⟨t, rfl⟩ := List.isPrefixOf_iff_prefix.1 hpre
      rw [List.drop_left] at h
      rw [Option.some.inj h]
    · exact absurd h nofun
  · rintro rfl
    rw [if_pos (List.isPrefixOf_iff_prefix.2 (List.prefix_append pat r)), List.drop_left]

/-- A text in front of another one is stripped. -/
theorem stripPrefix?_append (pat s : List Char) : stripPrefix? pat (pat ++ s) = some s :=
  stripPrefix?_eq_some.2 rfl

/-- A text that is not in front of another one is not stripped. -/
theorem stripPrefix?_eq_none {pat s : List Char} (h : ¬pat <+: s) : stripPrefix? pat s = none :=
  if_neg (mt List.isPrefixOf_iff_prefix.1 h)

/-- The text before a trailing `pat`, if `pat` ends it. -/
def stripSuffix? (pat s : List Char) : Option (List Char) :=
  if pat.isSuffixOf s then some (s.take (s.length - pat.length)) else none

/-- A text behind another one is stripped. -/
theorem stripSuffix?_append (s pat : List Char) : stripSuffix? pat (s ++ pat) = some s := by
  rw [stripSuffix?, if_pos (List.isSuffixOf_iff_suffix.2 (List.suffix_append s pat)),
    List.length_append, Nat.add_sub_cancel, List.take_left]

/-- The text before and after the first occurrence of `pat`. -/
def breakOn (pat : List Char) : List Char → Option (List Char × List Char)
  | [] => if pat.isEmpty then some ([], []) else none
  | c :: cs =>
    if pat.isPrefixOf (c :: cs) then some ([], (c :: cs).drop pat.length)
    else (breakOn pat cs).map fun (before, rest) => (c :: before, rest)

/-- What surrounds an occurrence, with the occurrence between, is the text searched. -/
theorem breakOn_eq_some {pat s before rest : List Char} (h : breakOn pat s = some (before, rest)) :
    s = before ++ pat ++ rest := by
  induction s generalizing before with
  | nil =>
    simp only [breakOn] at h
    split at h
    · simp_all
    · contradiction
  | cons c cs ih =>
    simp only [breakOn] at h
    split at h
    · next hp =>
      obtain ⟨t, ht⟩ := List.isPrefixOf_iff_prefix.1 hp
      simp only [Option.some.injEq, Prod.mk.injEq] at h
      obtain ⟨rfl, rfl⟩ := h
      simp [← ht]
    · obtain ⟨⟨b, r⟩, hb, he⟩ := Option.map_eq_some_iff.1 h
      simp only [Prod.mk.injEq] at he
      obtain ⟨rfl, rfl⟩ := he
      simp [ih hb]

/-- What follows an occurrence is no longer than the text searched. -/
theorem breakOn_length {pat s before rest : List Char} (h : breakOn pat s = some (before, rest)) :
    rest.length + pat.length ≤ s.length := by
  have := congrArg List.length (breakOn_eq_some h)
  simp at this
  omega

/-- Whether `pat` occurs in the text. -/
def contains (pat s : List Char) : Bool := (breakOn pat s).isSome

/-- The text with every occurrence of `pat`, taken from the left, replaced by `new`. -/
def replaceAll (pat new : List Char) : List Char → List Char
  | [] => []
  | c :: cs =>
    if pat.isPrefixOf (c :: cs) then new ++ replaceAll pat new (cs.drop (pat.length - 1))
    else c :: replaceAll pat new cs
termination_by s => s.length
decreasing_by all_goals simp_all; try omega

/-- The pieces of a text between the occurrences of a separator character: one more than there are
separators. -/
def splitOn (sep : Char) : List Char → List (List Char)
  | [] => [[]]
  | c :: cs =>
    if c = sep then [] :: splitOn sep cs
    else match splitOn sep cs with
      | [] => [[c]]
      | piece :: pieces => (c :: piece) :: pieces

/-- Pieces joined by a separator text. -/
def join (sep : List Char) (pieces : List (List Char)) : List Char := sep.intercalate pieces

/-- There is always a piece. -/
theorem splitOn_ne_nil (sep : Char) (s : List Char) : splitOn sep s ≠ [] := by
  cases s with
  | nil => simp [splitOn]
  | cons c cs =>
    simp only [splitOn]
    split
    · simp
    · split <;> simp

/-- A piece in front of others is separated from them. -/
theorem join_cons {sep piece : List Char} {pieces : List (List Char)} (h : pieces ≠ []) :
    join sep (piece :: pieces) = piece ++ sep ++ join sep pieces := by
  cases pieces with
  | nil => contradiction
  | cons p ps => simp [join, List.intercalate]

/-- The pieces joined by the separator are the text. -/
theorem join_splitOn (sep : Char) (s : List Char) : join [sep] (splitOn sep s) = s := by
  induction s with
  | nil => simp [splitOn, join, List.intercalate]
  | cons c cs ih =>
    have hne := splitOn_ne_nil sep cs
    simp only [splitOn]
    split
    · next hc => rw [join_cons hne, ih, hc]; rfl
    · cases hs : splitOn sep cs with
      | nil => contradiction
      | cons p ps =>
        rw [hs] at ih
        cases ps with
        | nil => simpa [join, List.intercalate] using ih
        | cons q qs =>
          rw [join_cons (by simp)] at ih ⊢
          simp [← ih]

/-- No piece holds the separator. -/
theorem not_mem_of_mem_splitOn {sep : Char} {s piece : List Char} (h : piece ∈ splitOn sep s) :
    sep ∉ piece := by
  induction s generalizing piece with
  | nil => simp_all [splitOn]
  | cons c cs ih =>
    simp only [splitOn] at h
    split at h
    · rcases List.mem_cons.1 h with rfl | h
      · simp
      · exact ih h
    · next hc =>
      cases hs : splitOn sep cs with
      | nil => exact absurd hs (splitOn_ne_nil sep cs)
      | cons p ps =>
        rw [hs] at h ih
        rcases List.mem_cons.1 h with rfl | h
        · have := ih (List.mem_cons_self (a := p) (l := ps))
          simp [this, Ne.symm hc]
        · exact ih (List.mem_cons_of_mem p h)

end ValidUsage.Text
