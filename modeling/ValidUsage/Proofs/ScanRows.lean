import ValidUsage.Proofs.ScanWithin

/-!
# Scanning line by line

The indentation of a line closes the open ones that are deeper and may open another one. Blank lines
and lines of comments only take their place; every other line is read from behind its indentation.
-/

namespace ValidUsage
namespace Lexer

open Paragraph

/-! ## Indentations -/

/-- The indentations that are open from a line with an indentation on. -/
def reindent (S : List Nat) (w : Nat) : List Nat :=
  if S.headD 0 < w then w :: S else S.dropWhile (w < ·)

/-- The kinds of the layout tokens of a line with an indentation. -/
def shift (S : List Nat) (w : Nat) : List TokenKind :=
  if S.headD 0 < w then [.indent] else (S.takeWhile (w < ·)).map fun _ => .dedent

/-- The layout of a line, by the indentations that are open and those that are behind it. -/
theorem layout_eq (S : List Nat) (w : Nat) (p : Pos) : layout S w p =
    if (reindent S w).headD 0 = w then .ok ((shift S w).map (⟨·, "", p⟩), reindent S w)
    else fail .unindent p := by
  unfold layout reindent shift
  dsimp only
  split
  · rw [if_pos (by rfl)]
    rfl
  · rw [List.map_map]
    rfl

/-- The tokens of an indentation are layout. -/
theorem isLayout_shift {S : List Nat} {w : Nat} {k : TokenKind} (h : k ∈ shift S w) :
    k.isLayout = true := by
  unfold shift at h
  split at h
  · rw [List.mem_singleton.1 h]
    rfl
  · obtain ⟨n, -, rfl⟩ := List.mem_map.1 h
    rfl

section Within

variable {S : List Nat} {w n : Nat}

private theorem dropWhile_dropWhile_lt (hn : n ≤ w) :
    (S.dropWhile (w < ·)).dropWhile (n < ·) = S.dropWhile (n < ·) := by
  induction S with
  | nil => rfl
  | cons m S ih =>
    by_cases hw : w < m
    · simp [hw, Nat.lt_of_le_of_lt hn hw, ih]
    · simp [hw]

private theorem takeWhile_lt_append (hn : n ≤ w) :
    S.takeWhile (n < ·) = S.takeWhile (w < ·) ++ (S.dropWhile (w < ·)).takeWhile (n < ·) := by
  induction S with
  | nil => rfl
  | cons m S ih =>
    by_cases hw : w < m
    · simp [hw, Nat.lt_of_le_of_lt hn hw, ih]
    · simp [hw]

/-- Whether a line with an indentation may follow a comment that is indented by `w`. Where the
comment opens a block the line is the next one of the block. -/
def follows (S : List Nat) (w n : Nat) : Bool := n ≤ w && (w ≤ S.headD 0 || n == w)

/-- A line may follow a comment if it is no further in, and no less far in where the comment opens a
block. -/
theorem follows_iff : follows S w n = true ↔ n ≤ w ∧ (w ≤ S.headD 0 ∨ n = w) := by
  simp [follows]

private theorem reindent_self (hw : (reindent S w).headD 0 = w) :
    reindent (reindent S w) w = reindent S w ∧ shift (reindent S w) w = [] := by
  have hnot : ¬(reindent S w).headD 0 < w := by omega
  rw [reindent, shift, if_neg hnot, if_neg hnot]
  cases hS : reindent S w with
  | nil => exact ⟨rfl, rfl⟩
  | cons m T =>
    obtain rfl : m = w := by simpa [hS] using hw
    simp

/-- A line behind a comment leaves the indentations open that it leaves open without it. -/
theorem reindent_follows (hw : (reindent S w).headD 0 = w) (h : follows S w n = true) :
    reindent (reindent S w) n = reindent S n ∧
      shift S n = shift S w ++ shift (reindent S w) n := by
  obtain ⟨hn, h⟩ := follows_iff.1 h
  by_cases hlt : S.headD 0 < w
  · obtain rfl : n = w := h.resolve_left (by omega)
    obtain ⟨h₁, h₂⟩ := reindent_self hw
    rw [h₁, h₂, List.append_nil]
    exact ⟨rfl, rfl⟩
  · have hnot : ¬(reindent S w).headD 0 < n := by omega
    have hnot' : ¬S.headD 0 < n := by omega
    rw [reindent, shift, shift, shift, if_neg hnot, if_neg hnot, if_neg hnot', if_neg hlt]
    rw [reindent, reindent, if_neg hlt, if_neg hnot', ← List.map_append, takeWhile_lt_append hn]
    exact ⟨dropWhile_dropWhile_lt hn, rfl⟩

/-- A line that is not indented deeper only closes indentations. -/
theorem shift_dedent (hn : n ≤ S.headD 0) : ∀ k ∈ shift S n, k = .dedent := by
  intro k hk
  rw [shift, if_neg (by omega)] at hk
  obtain ⟨m, -, rfl⟩ := List.mem_map.1 hk
  rfl

/-- A line that is less far in closes a block. -/
theorem shift_ne_nil (hn : n < S.headD 0) : shift S n ≠ [] := by
  rw [shift, if_neg (by omega)]
  cases S with
  | nil => exact absurd hn (Nat.not_lt_zero n)
  | cons m S =>
    have hm : n < m := hn
    simp [hm]

end Within

/-! ## Lines -/

/-- The text behind a line that has lines behind it. -/
def behind (lines : List (List Char)) : List Char := lines.flatMap ('\n' :: ·)

/-- What stands behind a line ends it. -/
theorem endsLine_behind (lines : List (List Char)) : EndsLine (behind lines) := by
  cases lines with
  | nil => exact nofun
  | cons line lines => exact fun c hc => by simpa [behind, eq_comm] using hc

private theorem join_eq_behind (line : List Char) (lines : List (List Char)) :
    Text.join ['\n'] (line :: lines) = line ++ behind lines := by
  induction lines generalizing line with
  | nil => simp [Text.join, behind, List.intercalate]
  | cons l lines ih =>
    rw [Text.join_cons (List.cons_ne_nil l lines), ih]
    simp [behind]

/-- The state at the start of a line, outside of brackets. -/
def State.atLine (p : Pos) (S : List Nat) : State := ⟨p, 0, S, false, true⟩

/-- The state behind the indentation of a line, outside of brackets. -/
def State.inLine (p : Pos) (S : List Nat) : State := ⟨p, 0, S, false, false⟩

/-- The tokens from the start of a line on. -/
def scanFrom (st : State) : List (List Char) → Except SyntaxError (List Token)
  | [] => finish st
  | line :: lines => scan st (line ++ behind lines)

/-- A text is read line by line. -/
theorem scan_join (st : State) {lines : List (List Char)} (h : lines ≠ []) :
    scan st (Text.join ['\n'] lines) = scanFrom st lines := by
  obtain ⟨line, lines, rfl⟩ := List.exists_cons_of_ne_nil h
  rw [join_eq_behind, scanFrom]

private theorem indentation_line {r : List Char} (hr : EndsLine r) (line : List Char) (n : Nat) :
    indentation n (line ++ r) = ((indentation n line).1, (indentation n line).2 ++ r) := by
  fun_induction indentation n line with
  | case1 n s ih | case2 n s ih | case3 n s ih => rw [List.cons_append, indentation, ih]
  | case4 n s h₁ h₂ h₃ =>
    cases s with
    | cons c s =>
      have h₁ : c ≠ ' ' := fun he => h₁ s (by rw [he])
      have h₂ : c ≠ '\t' := fun he => h₂ s (by rw [he])
      have h₃ : c ≠ '\x0c' := fun he => h₃ s (by rw [he])
      simp [indentation, h₁, h₂, h₃]
    | nil =>
      cases r with
      | nil => rfl
      | cons c r =>
        obtain rfl : c = '\n' := hr c rfl
        rfl

/-- The first character behind an indentation is none of it. -/
theorem indentation_head {n : Nat} {s : List Char} {c : Char} {cs : List Char}
    (h : (indentation n s).2 = c :: cs) : c ≠ ' ' ∧ c ≠ '\t' ∧ c ≠ '\x0c' := by
  fun_induction indentation n s with
  | case1 n s ih | case2 n s ih | case3 n s ih => exact ih h
  | case4 n s h₁ h₂ h₃ =>
    dsimp only at h
    subst h
    exact ⟨fun he => h₁ cs (by rw [he]), fun he => h₂ cs (by rw [he]), fun he => h₃ cs (by rw [he])⟩

/-- An indentation is made of blanks, tabs and form feeds, and ends before anything else. -/
theorem indentation_eq (n : Nat) (line : List Char) : ∃ u, line = u ++ (indentation n line).2 ∧
    (∀ c ∈ u, c = ' ' ∨ c = '\t' ∨ c = '\x0c') ∧
    ∀ {s'}, (∀ c ∈ s'.head?, c ≠ ' ' ∧ c ≠ '\t' ∧ c ≠ '\x0c') →
      indentation n (u ++ s') = ((indentation n line).1, s') := by
  fun_induction indentation n line with
  | case1 n s ih =>
    obtain ⟨u, hu, hall, hi⟩ := ih
    exact ⟨' ' :: u, congrArg _ hu, List.forall_mem_cons.2 ⟨.inl rfl, hall⟩, fun h => hi h⟩
  | case2 n s ih =>
    obtain ⟨u, hu, hall, hi⟩ := ih
    exact ⟨'\t' :: u, congrArg _ hu, List.forall_mem_cons.2 ⟨.inr (.inl rfl), hall⟩, fun h => hi h⟩
  | case3 n s ih =>
    obtain ⟨u, hu, hall, hi⟩ := ih
    exact ⟨'\x0c' :: u, congrArg _ hu, List.forall_mem_cons.2 ⟨.inr (.inr rfl), hall⟩,
      fun h => hi h⟩
  | case4 n s =>
    refine ⟨[], rfl, (by rintro _ ⟨⟩), fun {s'} h => ?_⟩
    cases s' with
    | nil => rfl
    | cons c s' =>
      obtain ⟨h₁, h₂, h₃⟩ := h c rfl
      simp [indentation, h₁, h₂, h₃]

section Step

variable {p : Pos} {S : List Nat} {line : List Char}

/-- At the end of the text the lexer finishes. -/
theorem scan_nil (st : State) : scan st [] = finish st := by rw [scan]

/-- A blank line, or one of a comment, is left up to its end. -/
theorem scan_blank {u s : List Char} (hs : (indentation 0 u).2 = s) (hb : isBlankLine s = true) :
    (s.dropWhile (· ≠ '\n') = [] → ∃ p', scan (.atLine p S) u = finish (.atLine p' S)) ∧
    ∀ c r, s.dropWhile (· ≠ '\n') = c :: r →
      scan (.atLine p S) u = scan (.atLine (nextLine p) S) r := by
  cases u with
  | nil =>
    subst hs
    exact ⟨fun _ => ⟨p, scan_nil _⟩, fun c r hr => absurd hr (by rintro ⟨⟩)⟩
  | cons c₀ cs₀ =>
    let p' := advance p (c₀ :: cs₀).length
    have hlast (x : Except SyntaxError (Step (c₀ :: cs₀)))
        (hx : ∃ h, x = .ok ⟨[], .atLine p' S, [], h⟩) :
        (x.bind fun x => (scan x.state x.rest).map (x.tokens ++ ·)) = finish (.atLine p' S) := by
      obtain ⟨h, rfl⟩ := hx
      rw [Except.bind, scan_nil]
      cases finish (.atLine p' S) <;> rfl
    rw [scan_step, step, if_pos ⟨rfl, rfl⟩]
    dsimp only
    split
    · rename_i hr
      obtain rfl := hs.symm.trans hr
      exact ⟨fun _ => ⟨p', hlast _ ⟨_, rfl⟩⟩, fun c r he => absurd he (by rintro ⟨⟩)⟩
    · rename_i c cs hr
      obtain rfl := hs.symm.trans hr
      rw [if_pos hb]
      split
      · rename_i ht
        exact ⟨fun _ => ⟨p', hlast _ ⟨_, rfl⟩⟩, fun c r he =>
          absurd (ht.symm.trans he) (by rintro ⟨⟩)⟩
      · rename_i d r ht
        refine ⟨fun he => absurd (ht.symm.trans he) (by rintro ⟨⟩), fun c' r' he => ?_⟩
        obtain ⟨rfl, rfl⟩ := List.cons.inj (ht.symm.trans he)
        rw [Except.bind]
        show (scan (.atLine (nextLine p) S) r).map _ = _
        cases scan (.atLine (nextLine p) S) r <;> rfl

/-- A blank line, or one of a comment, only takes its place. -/
theorem scan_blankLine (p : Pos) (S : List Nat) (lines : List (List Char)) (hn : '\n' ∉ line)
    (hb : isBlankLine (indentation 0 line).2 = true) :
    ∃ p', (lines ≠ [] → p' = nextLine p) ∧
      scan (.atLine p S) (line ++ behind lines) = scanFrom (.atLine p' S) lines := by
  have hi := indentation_line (endsLine_behind lines) line 0
  have hrest : ∀ c ∈ (indentation 0 line).2, decide (c ≠ '\n') = true := fun c hc =>
    decide_eq_true fun he => hn (he ▸ (indentation_suffix 0 line).subset hc)
  have hend : ∀ c ∈ (behind lines).head?, decide (c ≠ '\n') = false := fun c hc => by
    simp [endsLine_behind lines c hc]
  have hdrop := dropWhile_append_of_head hrest hend
  have hblank : isBlankLine ((indentation 0 line).2 ++ behind lines) = true := by
    cases hs : (indentation 0 line).2 with
    | cons c s => simpa [hs, isBlankLine] using hb
    | nil =>
      cases lines with
      | nil => rfl
      | cons l lines => rfl
  obtain ⟨hlast, hnext⟩ := scan_blank (p := p) (S := S) (congrArg Prod.snd hi) hblank
  cases lines with
  | nil =>
    obtain ⟨p', hp⟩ := hlast hdrop
    exact ⟨p', fun h => absurd rfl h, hp⟩
  | cons l lines => exact ⟨nextLine p, fun _ => rfl, hnext '\n' (l ++ behind lines) hdrop⟩

/-- A line with anything else starts with the layout tokens of its indentation. -/
theorem scan_textLine (p : Pos) {s : List Char} {n : Nat} (hi : indentation 0 line = (n, s))
    (hb : isBlankLine s = false) :
    ∃ p' : Pos, p'.line = p.line ∧ ∀ (S : List Nat) (lines : List (List Char)),
      scan (.atLine p S) (line ++ behind lines) = (layout S n p').bind fun x =>
        (scan (.inLine p' x.2) (s ++ behind lines)).map (x.1 ++ ·) := by
  cases s with
  | nil => exact absurd hb nofun
  | cons c cs =>
    refine ⟨advance p (line.length - (c :: cs).length), rfl, fun S lines => ?_⟩
    have hi' := indentation_line (endsLine_behind lines) line 0
    rw [hi] at hi'
    cases hu : line ++ behind lines with
    | nil =>
      obtain ⟨rfl, -⟩ := List.append_eq_nil_iff.1 hu
      exact absurd hi nofun
    | cons c₀ cs₀ =>
      have hlen : line.length - (c :: cs).length =
          (c₀ :: cs₀).length - (c :: (cs ++ behind lines)).length := by
        rw [← hu]
        simp only [List.length_append, List.length_cons]
        omega
      rw [hu] at hi'
      rw [hlen, scan_indented rfl rfl hi' hb rfl]
      simp only [State.atLine, State.inLine, ite_self]
      rfl

variable {st : State}

/-- The end of a line with tokens. -/
theorem scan_lineEnd (lines : List (List Char)) (hd : st.depth = 0) (hi : st.IsInline)
    (hc : st.content = true) :
    ∃ p, (lines ≠ [] → p = nextLine st.pos) ∧ scan st (behind lines) =
      (scanFrom (.atLine p st.indents) lines).map ([⟨.newline, "", st.pos⟩] ++ ·) := by
  obtain ⟨q, d, S, content, lineStart⟩ := st
  obtain rfl : d = 0 := hd
  obtain rfl : content = true := hc
  cases lines with
  | nil =>
    refine ⟨q, fun h => absurd rfl h, ?_⟩
    rw [behind, List.flatMap_nil, scan_nil, scanFrom]
    rfl
  | cons l lines =>
    have hl : lineStart = false := hi.resolve_right (Nat.lt_irrefl 0)
    exact ⟨nextLine q, fun _ => rfl, scan_newline rfl hl rfl (l ++ behind lines)⟩

/-- The end of a line has no token within brackets, nor where the line has none. -/
theorem scan_silentEnd (hi : st.IsInline) (h : ¬(st.depth = 0 ∧ st.content = true))
    (r : List Char) : scan st ('\n' :: r) =
      scan { st with pos := nextLine st.pos, lineStart := true } r := by
  rw [scan_cons hi]
  simp only [token, h, if_true, if_false]
  rw [Except.bind]
  cases scan { st with pos := nextLine st.pos, lineStart := true } r <;> rfl

/-- A backslash joins the next line, and there is one. -/
theorem scan_joined (hi : st.IsInline) {lines : List (List Char)} {v : List Char}
    (hv : v = ['\\'] ∨ v = ['\\', '\r']) {ts : List Token}
    (h : scan st (v ++ behind lines) = .ok ts) :
    ∃ l lines', lines = l :: lines' ∧ ∀ r, scan st (v ++ '\n' :: r) =
      scan { st with pos := nextLine st.pos, lineStart := false } r := by
  cases lines with
  | nil =>
    rcases hv with rfl | rfl
    all_goals
      rw [behind, List.flatMap_nil, List.append_nil, scan_cons hi, token_backslash] at h
      · exact absurd h nofun
      · exact nofun
      · exact nofun
  | cons l lines =>
    refine ⟨l, lines, rfl, fun r => ?_⟩
    rcases hv with rfl | rfl
    all_goals
      rw [List.cons_append, scan_cons hi]
      simp only [token, List.cons_append, List.nil_append, if_true]
      rw [if_neg (by decide), if_neg (by decide), if_neg (by decide), Except.bind]
      cases scan { st with pos := nextLine st.pos, lineStart := false } r <;> rfl

end Step

end Lexer
end ValidUsage
