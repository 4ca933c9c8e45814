import ValidUsage.Proofs.TokenCover

/-!
# Where tokens stand

A text is cut into its tokens and what stands between them, so that each token has a text in front
of it. Its line is one more than the number of line feeds in that text, and its column one more than
the number of characters behind the last of them, up to the first string that goes on behind a line
feed with a backslash in front of it: that line feed is not counted, and from there on all lines are
too small.
-/

namespace ValidUsage

/-- The position behind a text: lines end at line feeds, columns count characters. -/
def Pos.behindChars (front : List Char) : Pos :=
  ⟨front.count '\n' + 1, (front.reverse.takeWhile (· ≠ '\n')).length + 1⟩

/-- A token with the text in front of it. -/
structure Placed where
  /-- The text up to the token. -/
  front : List Char
  /-- The token. -/
  token : Token

namespace Lexer

open Paragraph (EndsLine)

/-! ## Cutting a text -/

/-- Whether a text ends with the indentation of the line that goes on with `s`. -/
def Indents (front s : List Char) : Prop :=
  ∃ u v, front = u ++ v ∧ EndsWithLine u ∧ (∀ c ∈ v, c = ' ' ∨ c = '\t' ∨ c = '\x0c') ∧
    ∃ c ∈ s.head?, c ≠ ' ' ∧ c ≠ '\t' ∧ c ≠ '\x0c'

/-- Whether a layout token of a kind may stand between two parts of a text: at the end of a line,
behind an indentation, or at the end of the text. -/
def mayStandBetween (kind : TokenKind) (front s : List Char) : Prop :=
  match kind with
  | .newline => EndsLine s
  | .indent => Indents front s
  | .dedent => Indents front s ∨ s = []
  | .endMarker => s = []
  | _ => False

/-- What stands between tokens, in front of `s`. A line that starts with a carriage return is left
out up to its end. -/
inductive Gap : List Char → List Char → Prop
  | blank {c : Char} {s : List Char} (hc : c ∈ [' ', '\t', '\r', '\x0c', '\n']) : Gap [c] s
  | join {u s : List Char} (hu : u = [] ∨ u = ['\r']) : Gap ('\\' :: (u ++ ['\n'])) s
  | rest {c : Char} {u s : List Char} (hc : c = '#' ∨ c = '\r') (hu : '\n' ∉ u)
      (hs : EndsLine s) : Gap (c :: u) s

/-- Whether the rest of a text behind some front is cut into tokens. -/
inductive Cut : List Char → List Char → List Placed → Prop
  | done {front : List Char} : Cut front [] []
  | layout {front s : List Char} {t : Token} {ps : List Placed} (ht : t.kind.isLayout = true)
      (htext : t.text = "") (hs : mayStandBetween t.kind front s) (h : Cut front s ps) :
      Cut front s (⟨front, t⟩ :: ps)
  | token {front s : List Char} {t : Token} {ps : List Placed} (ht : t.kind.isLayout = false)
      (htext : t.text ≠ "") (h : Cut (front ++ t.text.toList) s ps) :
      Cut front (t.text.toList ++ s) (⟨front, t⟩ :: ps)
  | gap {front u s : List Char} {ps : List Placed} (hu : Gap u s) (h : Cut (front ++ u) s ps) :
      Cut front (u ++ s) ps

/-! ## Counting lines -/

/-- The number of line feeds in the text of a token. -/
def lineFeeds (t : Token) : Nat := t.text.toList.count '\n'

/-- Whether a position is that behind a text, but for `k` line feeds that are not counted. -/
structure Counts (front : List Char) (k : Nat) (p : Pos) : Prop where
  line : p.line + k = (Pos.behindChars front).line
  col : k = 0 → p.col = (Pos.behindChars front).col

section Counts

variable {front u : List Char} {k : Nat} {p : Pos}

private theorem behindChars_append (hu : '\n' ∉ u) :
    Pos.behindChars (front ++ u) = advance (Pos.behindChars front) u.length := by
  have hne : ∀ c ∈ u.reverse, decide (c ≠ '\n') = true := by
    intro c hc
    rw [decide_eq_true_iff]
    rintro rfl
    exact hu (List.mem_reverse.1 hc)
  rw [Pos.behindChars, List.count_append, List.count_eq_zero_of_not_mem hu, List.reverse_append,
    List.takeWhile_append_of_pos hne, List.length_append, List.length_reverse]
  simp only [advance, Pos.behindChars, Nat.add_zero, Pos.mk.injEq, true_and]
  omega

private theorem behindChars_newline (hu : '\n' ∉ u) :
    Pos.behindChars (front ++ (u ++ ['\n'])) = nextLine (Pos.behindChars front) := by
  simp [Pos.behindChars, nextLine, List.count_eq_zero_of_not_mem hu]

/-- Characters of the same line move the position along. -/
theorem Counts.inLine (h : Counts front k p) (hu : '\n' ∉ u) :
    Counts (front ++ u) k (advance p u.length) := by
  refine ⟨?_, fun hk => ?_⟩ <;> rw [behindChars_append hu]
  · exact h.line
  · exact congrArg (· + u.length) (h.col hk)

/-- The end of a line moves the position to the next line. -/
theorem Counts.newline (h : Counts front k p) (hu : '\n' ∉ u) :
    Counts (front ++ (u ++ ['\n'])) k (nextLine p) := by
  refine ⟨?_, fun _ => ?_⟩ <;> rw [behindChars_newline hu]
  · have hline := h.line
    simp only [nextLine]
    omega
  · rfl

/-- The text of a token moves the position along, whether it has line feeds or not. -/
theorem Counts.token (h : Counts front k p) :
    Counts (front ++ u) (k + u.count '\n') (Lexer.advance p u.length) := by
  by_cases hu : '\n' ∈ u
  · have hpos : 0 < u.count '\n' := List.count_pos_iff.2 hu
    refine ⟨?_, fun hk => by omega⟩
    have hline := h.line
    simp only [Pos.behindChars, List.count_append, Lexer.advance] at hline ⊢
    omega
  · rw [List.count_eq_zero_of_not_mem hu]
    exact h.inLine hu

/-- A position is right exactly if no line feed in front of it is not counted. -/
theorem Counts.eq_behindChars_iff (h : Counts front k p) : p = Pos.behindChars front ↔ k = 0 := by
  have hline := h.line
  constructor
  · intro he
    rw [he] at hline
    omega
  · rintro rfl
    obtain ⟨line, col⟩ := p
    exact congr (congrArg Pos.mk hline) (h.col rfl)

end Counts

/-- Whether the positions of tokens are right but for the line feeds in tokens before them, `k` of
which are in front of them all. -/
def AreCounted : Nat → List Placed → Prop
  | _, [] => True
  | k, p :: ps => Counts p.front k p.token.pos ∧ AreCounted (k + lineFeeds p.token) ps

private theorem AreCounted.counts {k : Nat} {u : List Placed} {p : Placed} {r : List Placed}
    (h : AreCounted k (u ++ p :: r)) :
    Counts p.front (k + (u.map fun q => lineFeeds q.token).sum) p.token.pos := by
  induction u generalizing k with
  | nil => exact h.1
  | cons q u ih =>
    rw [List.map_cons, List.sum_cons, ← Nat.add_assoc]
    exact ih h.2

/-- Whether the rest of a text behind some front has these tokens, at positions that are right but
for the line feeds in tokens, `k` of which are in the front. -/
def Places (front : List Char) (k : Nat) (s : List Char) (ts : List Token) : Prop :=
  ∃ ps, Cut front s ps ∧ ps.map Placed.token = ts ∧ AreCounted k ps

section Places

variable {front u s : List Char} {k : Nat} {p : Pos} {ts : List Token}

/-- Layout in front of tokens stands where it should when it may stand there. -/
theorem Places.layout {l : List Token} (hp : Counts front k p)
    (hl : ∀ t ∈ l, t.kind.isLayout = true ∧ t.text = "" ∧ t.pos = p ∧
      mayStandBetween t.kind front s) (h : Places front k s ts) : Places front k s (l ++ ts) := by
  induction l with
  | nil => exact h
  | cons t l ih =>
    obtain ⟨⟨hk, htext, hpos, hs⟩, hl⟩ := List.forall_mem_cons.1 hl
    obtain ⟨ps, hcut, htokens, hcounted⟩ := ih hl
    have hfeeds : lineFeeds t = 0 := by rw [lineFeeds, htext]; rfl
    refine ⟨⟨front, t⟩ :: ps, .layout hk htext hs hcut, congrArg (t :: ·) htokens, ?_, ?_⟩
    · rw [hpos]
      exact hp
    · rw [hfeeds]
      exact hcounted

/-- A token stands where it should if its position counts the lines in front of it. -/
theorem Places.token {t : Token} (hp : Counts front k t.pos) (hk : t.kind.isLayout = false)
    (htext : t.text ≠ "") (h : Places (front ++ t.text.toList) (k + lineFeeds t) s ts) :
    Places front k (t.text.toList ++ s) (t :: ts) := by
  obtain ⟨ps, hcut, htokens, hcounted⟩ := h
  exact ⟨⟨front, t⟩ :: ps, .token hk htext hcut, congrArg (t :: ·) htokens, hp, hcounted⟩

/-- What stands between tokens moves the places of those behind it. -/
theorem Places.gap (hu : Gap u s) (h : Places (front ++ u) k s ts) :
    Places front k (u ++ s) ts := by
  obtain ⟨ps, hcut, hrest⟩ := h
  exact ⟨ps, .gap hu hcut, hrest⟩

/-- So do blanks. -/
theorem Places.blanks (hu : ∀ c ∈ u, c = ' ' ∨ c = '\t' ∨ c = '\x0c')
    (h : Places (front ++ u) k s ts) : Places front k (u ++ s) ts := by
  induction u generalizing front with
  | nil => rwa [List.append_nil] at h
  | cons c u ih =>
    obtain ⟨hc, hu⟩ := List.forall_mem_cons.1 hu
    refine .gap (u := [c]) (.blank (by rcases hc with rfl | rfl | rfl <;> decide)) (ih hu ?_)
    rwa [List.append_assoc]

end Places

/-! ## Steps -/

/-- What is known where a step begins: how lines were counted, and that the text in front ends with
a line if the state says that a line starts. -/
structure Stands (front : List Char) (k : Nat) (st : State) (s : List Char) : Prop where
  counts : Counts front k st.pos
  fresh : st.lineStart = true → s ≠ [] → EndsWithLine front

section Step

variable {st : State} {c : Char} {cs : List Char} {x : Step (c :: cs)} {front : List Char} {k : Nat}
  {ts : List Token}

private theorem places_move (hm : Move st x) (hst : st.lineStart = false)
    (hp : Counts front k st.pos)
    (ih : ∀ front k, Stands front k x.state x.rest → Places front k x.rest ts) :
    Places front k (c :: cs) (x.tokens ++ ts) := by
  -- Only the end of a line starts another one.
  have stands {front k} (hline : x.state.lineStart = st.lineStart)
      (hp : Counts front k x.state.pos) : Stands front k x.state x.rest :=
    ⟨hp, fun hs _ => absurd ((hline.trans hst).symm.trans hs) nofun⟩
  cases hm with
  | @token t u depth tokens kind text start split after alone state =>
    have htext : t.text ≠ "" := by
      intro he
      rw [he] at text
      exact absurd text nofun
    have hbehind : Counts (front ++ t.text.toList) (k + lineFeeds t) x.state.pos := by
      rw [state, lineFeeds, text]
      exact hp.token
    have hrest := Places.token (start ▸ hp) kind htext
      (ih _ _ (stands (by rw [state]) hbehind))
    rw [tokens, split]
    rwa [text] at hrest
  | @newline ends char ended tokens rest state =>
    have hbehind : Stands (front ++ ['\n']) k x.state x.rest := by
      refine ⟨?_, fun _ _ => .append rfl⟩
      rw [state]
      exact hp.newline (u := []) List.not_mem_nil
    have hrest := (ih _ _ hbehind).gap (.blank (by decide))
    rw [rest] at hrest
    rw [tokens, char]
    refine hrest.layout hp fun t ht => ?_
    split at ht
    · rw [List.mem_singleton.1 ht]
      exact ⟨rfl, rfl, rfl, fun d hd => (Option.some.inj hd).symm⟩
    · exact absurd ht List.not_mem_nil
  | blank char tokens rest state =>
    have hc : '\n' ∉ [c] := by rcases char with rfl | rfl | rfl | rfl <;> decide
    have hbehind : Counts (front ++ [c]) k x.state.pos := by
      rw [state]
      exact hp.inLine hc
    have hrest := (ih _ _ (stands (by rw [state]) hbehind)).gap
      (.blank (by rcases char with rfl | rfl | rfl | rfl <;> decide))
    rw [rest] at hrest
    rwa [tokens]
  | @comment u char split inLine ends tokens state =>
    have hc : '\n' ∉ c :: u := by
      rw [char, List.mem_cons, not_or]
      exact ⟨by decide, inLine⟩
    have hbehind : Counts (front ++ c :: u) k x.state.pos := by
      rw [state]
      exact hp.inLine hc
    have hrest := (ih _ _ (stands (by rw [state]) hbehind)).gap (.rest (.inl char) inLine ends)
    rw [tokens, split]
    exact hrest
  | @join u char split carriage tokens state =>
    subst char
    have hu : '\n' ∉ '\\' :: u := by rcases carriage with rfl | rfl <;> decide
    have hbehind : Counts (front ++ '\\' :: (u ++ ['\n'])) k x.state.pos := by
      rw [state]
      exact hp.newline hu
    have hrest := (ih _ _ (stands (by rw [state]) hbehind)).gap (.join carriage)
    rw [tokens, split]
    simpa using hrest

private theorem places_step (hx : step st c cs = .ok x) (hs : Stands front k st (c :: cs))
    (ih : ∀ front k, Stands front k x.state x.rest → Places front k x.rest ts) :
    Places front k (c :: cs) (x.tokens ++ ts) := by
  have inLine {u : List Char} (hu : ∀ c ∈ u, c = ' ' ∨ c = '\t' ∨ c = '\x0c') : '\n' ∉ u :=
    fun hm => absurd (hu _ hm) (by decide)
  cases turn_step hx with
  | @blankLine u line tail start split blanks indent whole ends blank tokens rest state =>
    have hline : '\n' ∉ u ++ line := fun hm => (List.mem_append.1 hm).elim (inLine blanks) whole
    rw [tokens, split]
    refine .blanks blanks ?_
    have htail : Places (front ++ u ++ line) k tail ts := by
      cases tail with
      | nil =>
        have hbehind : Counts (front ++ u ++ line) k x.state.pos := by
          rw [state, List.append_assoc]
          exact hs.counts.inLine hline
        have hrest := ih _ _ ⟨hbehind, fun _ hne => absurd rest hne⟩
        rw [rest] at hrest
        exact hrest
      | cons d r =>
        obtain rfl : d = '\n' := ends d rfl
        have hbehind : Counts (front ++ u ++ line ++ ['\n']) k x.state.pos := by
          rw [state, List.append_assoc, List.append_assoc, ← List.append_assoc u]
          exact hs.counts.newline hline
        have hrest := ih _ _ ⟨hbehind, fun _ _ => .append rfl⟩
        rw [rest] at hrest
        exact .gap (u := ['\n']) (.blank (by decide)) hrest
    cases line with
    | nil => simpa using htail
    | cons d v =>
      have hd : d = '#' ∨ d = '\r' := by
        have hn : d ≠ '\n' := fun he => whole (he ▸ List.mem_cons_self)
        simpa [isBlankLine, hn] using blank
      exact .gap (.rest hd (fun hm => whole (List.mem_cons_of_mem _ hm)) ends) htail
  | @textLine u c' cs' y layoutTokens indents start split blanks indent full layout token tokens
      rest state =>
    have hp : Counts (front ++ u) k (advance st.pos u.length) := hs.counts.inLine (inLine blanks)
    have hindents : Indents (front ++ u) (c' :: cs') :=
      ⟨front, u, rfl, hs.fresh start.1 (List.cons_ne_nil _ _), blanks, c', rfl,
        indentation_head indent⟩
    have hrest : Places (front ++ u) k (c' :: cs') (y.tokens ++ ts) :=
      places_move (move_token token) rfl hp fun front k hy => by
        rw [← rest]
        exact ih front k (by rwa [state, rest])
    rw [tokens, split, List.append_assoc]
    refine .blanks blanks (hrest.layout hp fun t ht => ?_)
    rcases layout_opens_or_closes layout with ⟨-, rfl, -⟩ | ⟨closed, -, rfl⟩
    · rw [List.mem_singleton.1 ht]
      exact ⟨rfl, rfl, rfl, hindents⟩
    · obtain ⟨n, -, rfl⟩ := List.mem_map.1 ht
      exact ⟨rfl, rfl, rfl, .inl hindents⟩
  | inside start token => exact places_move (move_token token) rfl hs.counts ih

end Step

private theorem places_finish {st : State} {front : List Char} {k : Nat}
    (hp : Counts front k st.pos)
    {ts : List Token} (h : finish st = .ok ts) : Places front k [] ts := by
  obtain ⟨-, rfl⟩ := eq_of_finish h
  rw [← List.append_nil (_ ++ _)]
  refine .layout hp (fun t ht => ?_) ⟨[], .done, rfl, trivial⟩
  simp only [List.mem_append, List.mem_map, List.mem_singleton] at ht
  rcases ht with ht | ⟨n, -, rfl⟩ | rfl
  · split at ht
    · rw [List.mem_singleton.1 ht]
      exact ⟨rfl, rfl, rfl, nofun⟩
    · exact absurd ht List.not_mem_nil
  · exact ⟨rfl, rfl, rfl, .inr rfl⟩
  · exact ⟨rfl, rfl, rfl, rfl⟩

private theorem places_scan {front s : List Char} {k : Nat} {st : State} (hs : Stands front k st s)
    {ts : List Token} (h : scan st s = .ok ts) : Places front k s ts := by
  cases s with
  | nil =>
    rw [scan] at h
    exact places_finish hs.counts h
  | cons c cs =>
    rw [scan_step] at h
    obtain ⟨x, hx, h⟩ := Parser.ok_of_bind h
    obtain ⟨rest, hrest, rfl⟩ := ok_of_map h
    have := x.shorter
    exact places_step hx hs fun front k hs => places_scan hs hrest
termination_by s.length

end Lexer

open Lexer

/-- A text is cut into its tokens and what stands between them, and the position of a token is that
behind the text in front of it exactly if no token before it has a line feed in its text. -/
theorem tokenize_pos_iff {s : List Char} {ts : List Token} (h : tokenize s = .ok ts) :
    ∃ ps, Cut [] s ps ∧ ps.map Placed.token = ts ∧ ∀ u p r, ps = u ++ p :: r →
      (p.token.pos = Pos.behindChars p.front ↔ ∀ q ∈ u, '\n' ∉ q.token.text.toList) := by
  have hstart : Stands [] 0 .init s := ⟨⟨rfl, fun _ => rfl⟩, fun _ _ _ hc => absurd hc nofun⟩
  obtain ⟨ps, hcut, htokens, hcounted⟩ := places_scan hstart h
  refine ⟨ps, hcut, htokens, ?_⟩
  rintro u p r rfl
  rw [hcounted.counts.eq_behindChars_iff, Nat.zero_add, List.sum_eq_zero_iff_forall_eq_nat]
  simp only [List.forall_mem_map, lineFeeds, List.count_eq_zero]

/-- A requirement on two lines in an indented block, with a comment. -/
theorem tokenize_pos_iff_block :
    let s := "if a:  # é\n  require(b ==\n    c)".toList
    ∃ ts, tokenize s = .ok ts ∧
      ts.map (fun t => (t.text, t.pos)) = [("if", ⟨1, 1⟩), ("a", ⟨1, 4⟩), (":", ⟨1, 5⟩),
        ("", ⟨1, 11⟩), ("", ⟨2, 3⟩), ("require", ⟨2, 3⟩), ("(", ⟨2, 10⟩), ("b", ⟨2, 11⟩),
        ("==", ⟨2, 13⟩), ("c", ⟨3, 5⟩), (")", ⟨3, 6⟩), ("", ⟨3, 7⟩), ("", ⟨3, 7⟩), ("", ⟨3, 7⟩)] ∧
      ∃ ps, Cut [] s ps ∧ ps.map Placed.token = ts ∧ ∀ u p r, ps = u ++ p :: r →
        (p.token.pos = Pos.behindChars p.front ↔ ∀ q ∈ u, '\n' ∉ q.token.text.toList) := by
  intro s
  have hok : (tokenize s).toOption.map (·.map fun t => (t.text, t.pos)) =
      some [("if", ⟨1, 1⟩), ("a", ⟨1, 4⟩), (":", ⟨1, 5⟩), ("", ⟨1, 11⟩), ("", ⟨2, 3⟩),
        ("require", ⟨2, 3⟩), ("(", ⟨2, 10⟩), ("b", ⟨2, 11⟩), ("==", ⟨2, 13⟩), ("c", ⟨3, 5⟩),
        (")", ⟨3, 6⟩), ("", ⟨3, 7⟩), ("", ⟨3, 7⟩), ("", ⟨3, 7⟩)] := by
    decide +kernel
  cases hs : tokenize s with
  | error e =>
    rw [hs] at hok
    exact absurd hok nofun
  | ok ts =>
    rw [hs] at hok
    exact ⟨ts, rfl, Option.some.inj hok, tokenize_pos_iff hs⟩

/-- Behind a string with a line feed in it, the name on the second line is taken to be on the
first. -/
theorem tokenize_pos_ne :
    let front := "'a\\\nb' ".toList
    tokenize (front ++ ['c']) = .ok [⟨.str, "'a\\\nb'", ⟨1, 1⟩⟩, ⟨.name, "c", ⟨1, 8⟩⟩,
      ⟨.newline, "", ⟨1, 9⟩⟩, ⟨.endMarker, "", ⟨1, 9⟩⟩] ∧ Pos.behindChars front = ⟨2, 4⟩ := by
  decide +kernel

end ValidUsage
