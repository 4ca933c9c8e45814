import ValidUsage.Layout.Stmt
import ValidUsage.Proofs.ScanMarks

/-!
# Scanning lines

The tokens of a statement end with its line; those of a block stand between an indentation and its
end. After the last character of a statement the lexer has not yet seen the ends of the blocks that
end with it: the widths of their indentations are still open, and are closed at the next line or at
the end of the text.
-/

namespace ValidUsage

/-- A token of layout. -/
def layoutToken (kind : TokenKind) : TokenKind × String := (kind, "")

namespace Stmt

/-- The tokens of a line and of the block behind it, which are indented tokens. -/
def suiteTokens (ts : List (TokenKind × String)) : List (TokenKind × String) :=
  layoutToken .newline :: layoutToken .indent :: (ts ++ [layoutToken .dedent])

/-- The tokens behind the head of a compound statement: the end of the line only, if there are no
statements. -/
def bodyTokens : Block → List (TokenKind × String) → List (TokenKind × String)
  | [], _ => [layoutToken .newline]
  | _ :: _, ts => suiteTokens ts

/-- Behind the head of a compound statement stand the line end and an indented block. -/
theorem bodyTokens_eq {body : Block} (h : body ≠ []) (ts : List (TokenKind × String)) :
    bodyTokens body ts = suiteTokens ts := by
  cases body with
  | nil => exact absurd rfl h
  | cons s ss => rfl

mutual

/-- The tokens of a statement that starts a line indented by `n`, up to the end of its last line. -/
def tokens : Stmt → Nat → List (TokenKind × String)
  | ifElse _ test body orelse, n =>
    (.name, "if") :: (tokensOf (test.layout n) ++ (.op, ":") ::
      (bodyTokens body (blockTokens body (n + blockIndent)) ++ elseTokens true orelse n))
  | forEach _ target iter body orelse, n =>
    (.name, "for") :: (tokensOf (target.layout n) ++ (.name, "in") ::
      (tokensOf (iter.layout n) ++ (.op, ":") ::
        (bodyTokens body (blockTokens body (n + blockIndent)) ++ elseTokens false orelse n)))
  | whileDo _ test body orelse, n =>
    (.name, "while") :: (tokensOf (test.layout n) ++ (.op, ":") ::
      (bodyTokens body (blockTokens body (n + blockIndent)) ++ elseTokens false orelse n))
  | s, n => tokensOf (s.layout n) ++ [layoutToken .newline]

/-- The tokens of the statements of a block. -/
def blockTokens : Block → Nat → List (TokenKind × String)
  | [], _ => []
  | s :: ss, n => tokens s n ++ blockTokens ss n

/-- The tokens of an `else` with its block, if there is one. -/
def elseTokens (chained : Bool) : Block → Nat → List (TokenKind × String)
  | [], _ => []
  | [ifElse p test body orelse], n =>
    if chained then
      (.name, "elif") :: (tokensOf (test.layout n) ++ (.op, ":") ::
        (bodyTokens body (blockTokens body (n + blockIndent)) ++ elseTokens true orelse n))
    else
      (.name, "else") :: (.op, ":") ::
        suiteTokens (tokens (ifElse p test body orelse) (n + blockIndent))
  | s :: ss, n =>
    (.name, "else") :: (.op, ":") ::
      suiteTokens (tokens s (n + blockIndent) ++ blockTokens ss (n + blockIndent))

end

end Stmt

namespace Lexer

/-- Whether a text that starts behind the indentation of a line, where the indentations `S` are
open, yields the tokens of whole statements when the end of its last line and the ends of the
blocks that are still open are added. -/
def ScansLines (S : List Nat) (s : List Char) (ts : List (TokenKind × String)) (r : List Char) :
    Prop :=
  ∀ st : State, st.depth = 0 → st.lineStart = false → st.indents = S →
    ∃ (toks : List Token) (st' : State) (inner : List Nat),
      st'.depth = 0 ∧ st'.lineStart = false ∧ st'.indents = inner ++ S ∧
      (∀ w ∈ inner, S.headD 0 < w) ∧ st'.content = true ∧
      toks.map Token.bare ++ layoutToken .newline :: inner.map (fun _ => layoutToken .dedent) = ts ∧
      scan st (s ++ r) = (scan st' r).map (toks ++ ·)

private theorem ScansLines.of_scans {S : List Nat} {s r : List Char}
    {ts : List (TokenKind × String)}
    (h : Scans 0 s ts 0 r) (hne : ts ≠ []) :
    ScansLines S s (ts ++ [layoutToken .newline]) r := by
  intro st hd hl hS
  obtain ⟨toks, st', ht, hd', hS', hc, hi, he⟩ := h st hd (.inl hl)
  refine ⟨toks, st', [], hd', ?_, hS'.trans hS, by simp, ?_, by simp [ht], he⟩
  · rcases hi with hi | hi
    · exact hi
    · omega
  · simp [hc, hne]

/-- Whether a text starts with a character that ends an indentation and starts no comment. -/
def StartsLine (s : List Char) : Prop :=
  ∃ c cs, s = c :: cs ∧ c ≠ '#' ∧ Text.isBlank c = false

/-- Whether a text starts a line does not depend on its end. -/
theorem StartsLine.append {s : List Char} (h : StartsLine s) (r : List Char) :
    StartsLine (s ++ r) := by
  obtain ⟨c, cs, rfl, hc⟩ := h
  exact ⟨c, cs ++ r, rfl, hc⟩

/-- What starts a line is no blank line. -/
theorem StartsLine.isBlankLine {s : List Char} (h : StartsLine s) : isBlankLine s = false := by
  obtain ⟨c, cs, rfl, hc, hb⟩ := h
  have hne : ∀ x, x = '#' ∨ Text.isBlank x = true → c ≠ x := by
    rintro x (rfl | hx) rfl
    · exact hc rfl
    · simp [hb] at hx
  simp [Lexer.isBlankLine, hne '#' (by decide), hne '\n' (by decide), hne '\r' (by decide)]

/-- What is behind an indentation is the end of the text. -/
theorem indentation_suffix (width : Nat) (s : List Char) : (indentation width s).2 <:+ s := by
  fun_induction indentation width s with
  | case1 width r ih | case2 width r ih | case3 width r ih => exact ih.trans (List.suffix_cons _ _)
  | case4 width r => exact List.suffix_refl r

private theorem indentation_blanks {s : List Char} (hs : StartsLine s) (n w : Nat) :
    indentation w (List.replicate n ' ' ++ s) = (w + n, s) := by
  induction n generalizing w with
  | zero =>
    obtain ⟨c, cs, rfl, -, hb⟩ := hs
    have hne : ∀ x, Text.isBlank x = true → c ≠ x := by
      rintro x hx rfl
      simp [hb] at hx
    have h₁ := hne ' ' (by decide)
    have h₂ := hne '\t' (by decide)
    have h₃ := hne '\x0c' (by decide)
    simp [indentation, h₁, h₂, h₃]
  | succ n ih =>
    rw [List.replicate_succ, List.cons_append, indentation, ih]
    simp
    omega

/-- The lexer takes one step, and goes on from there. -/
theorem scan_step (st : State) (c : Char) (cs : List Char) : scan st (c :: cs) =
    (step st c cs).bind fun x => (scan x.state x.rest).map (x.tokens ++ ·) := by
  rw [scan]
  cases step st c cs with
  | error e => rfl
  | ok x =>
    simp only [bind, Except.bind]
    cases scan x.state x.rest <;> rfl

/-- A line starts with the layout tokens of its indentation, if there are any. -/
theorem scan_indented {st : State} (hd : st.depth = 0) (hl : st.lineStart = true) {c₀ c : Char}
    {cs₀ cs : List Char} {n : Nat} (hi : indentation 0 (c₀ :: cs₀) = (n, c :: cs))
    (hb : isBlankLine (c :: cs) = false) {p : Pos}
    (hp : p = advance st.pos ((c₀ :: cs₀).length - (c :: cs).length)) :
    scan st (c₀ :: cs₀) = (layout st.indents n p).bind fun x => (scan { st with
      pos := p, indents := x.2, content := if x.1.isEmpty then st.content else false,
      lineStart := false } (c :: cs)).map (x.1 ++ ·) := by
  subst hp
  rw [scan_step, step, if_pos ⟨hl, hd⟩]
  dsimp only
  split
  next hr => simp [hi] at hr
  next c' cs' hr =>
    have hcs : c' = c ∧ cs' = cs := by simpa [hi, eq_comm] using hr
    obtain ⟨rfl, rfl⟩ := hcs
    have hn : (indentation 0 (c₀ :: cs₀)).1 = n := by rw [hi]
    rw [if_neg (by simp [hb]), hn]
    cases layout st.indents n _ with
    | error e => rfl
    | ok x =>
      rw [Except.bind, scan_cons (.inl rfl)]
      simp only [bind, Except.bind]
      cases token _ c' cs' with
      | error e => rfl
      | ok y =>
        simp only [pure, Except.pure]
        cases scan y.state y.rest with
        | error e => rfl
        | ok ts => simp [Except.map]

private theorem scan_line {st : State} (hd : st.depth = 0) (hl : st.lineStart = true) {c₀ c : Char}
    {cs₀ cs : List Char} {n : Nat} (hi : indentation 0 (c₀ :: cs₀) = (n, c :: cs))
    (hb : isBlankLine (c :: cs) = false) {toks : List Token} {S : List Nat}
    {p : Pos} (hp : p = advance st.pos ((c₀ :: cs₀).length - (c :: cs).length))
    (hlay : layout st.indents n p = .ok (toks, S)) :
    scan st (c₀ :: cs₀) = (scan { st with
      pos := p, indents := S, content := if toks.isEmpty then st.content else false,
      lineStart := false } (c :: cs)).map (toks ++ ·) := by
  rw [scan_indented hd hl hi hb hp, hlay]
  rfl

/-- The end of a line with content is a token. -/
theorem scan_newline {st : State} (hd : st.depth = 0) (hl : st.lineStart = false)
    (hc : st.content = true) (r : List Char) : scan st ('\n' :: r) =
      (scan { st with pos := nextLine st.pos, content := false, lineStart := true } r).map
        ([⟨.newline, "", st.pos⟩] ++ ·) := by
  rw [scan_cons (.inl hl)]
  simp [token, hd, hc, Except.bind]

private theorem layout_deeper {S : List Nat} {n : Nat} (h : S.headD 0 < n) (p : Pos) :
    layout S n p = .ok ([⟨.indent, "", p⟩], n :: S) := by
  simp only [layout, h, if_true]

private theorem layout_back {inner S : List Nat} {n : Nat} (hin : ∀ w ∈ inner, n < w)
    (hS : S.headD 0 = n) (p : Pos) :
    layout (inner ++ S) n p = .ok (inner.map fun _ => ⟨.dedent, "", p⟩, S) := by
  have hin' : ∀ w ∈ inner, decide (n < w) = true := fun w hw => decide_eq_true (hin w hw)
  have htake : (inner ++ S).takeWhile (n < ·) = inner := by
    rw [List.takeWhile_append_of_pos hin']
    cases S with
    | nil => simp
    | cons w S =>
      have hw : w = n := hS
      simp [hw]
  have hdrop : (inner ++ S).dropWhile (n < ·) = S := by
    rw [List.dropWhile_append_of_pos hin']
    cases S with
    | nil => simp
    | cons w S =>
      have hw : w = n := hS
      simp [hw]
  have hlt : ¬ (inner ++ S).headD 0 < n := by
    cases inner with
    | nil =>
      show ¬ S.headD 0 < n
      omega
    | cons w inner => exact Nat.not_lt.2 (Nat.le_of_lt (hin w List.mem_cons_self))
  simp only [layout, hlt, if_false, htake, hdrop, hS, if_true]

/-- The end of a line, and the start of the next one. -/
theorem scan_nextLine {st : State} (hd : st.depth = 0) (hl : st.lineStart = false)
    (hc : st.content = true) {s : List Char} (hs : StartsLine s) (n : Nat) (r : List Char)
    {S : List Nat} {ts : List (TokenKind × String)}
    (hlay : ∀ p, ∃ toks, layout st.indents n p = .ok (toks, S) ∧ toks.map Token.bare = ts) :
    ∃ (toks : List Token) (st' : State), toks.map Token.bare = layoutToken .newline :: ts ∧
      st'.depth = 0 ∧ st'.lineStart = false ∧ st'.indents = S ∧
      scan st ('\n' :: (List.replicate n ' ' ++ (s ++ r))) =
        (scan st' (s ++ r)).map (toks ++ ·) := by
  have hi := indentation_blanks (hs.append r) n 0
  have hb := (hs.append r).isBlankLine
  obtain ⟨c, cs, hsr, -⟩ := hs.append r
  rw [hsr, Nat.zero_add] at hi
  rw [hsr] at hb ⊢
  obtain ⟨c₀, cs₀, hu⟩ : ∃ c₀ cs₀, List.replicate n ' ' ++ c :: cs = c₀ :: cs₀ :=
    List.exists_cons_of_ne_nil (by simp)
  rw [hu] at hi
  let st₁ : State := { st with pos := nextLine st.pos, content := false, lineStart := true }
  let p := advance st₁.pos ((c₀ :: cs₀).length - (c :: cs).length)
  obtain ⟨toks, hlay, ht⟩ := hlay p
  have hline := scan_line (show st₁.depth = 0 from hd) rfl hi hb rfl hlay
  refine ⟨⟨.newline, "", st.pos⟩ :: toks, { st₁ with
    pos := p, indents := S, content := if toks.isEmpty then st₁.content else false,
    lineStart := false }, by simp [ht, Token.bare, layoutToken], hd, rfl, rfl, ?_⟩
  rw [scan_newline hd hl hc, hu, hline]
  cases scan _ (c :: cs) with
  | error e => rfl
  | ok ts => rfl

/-- Lines at one indentation yield their tokens one after the other. -/
theorem ScansLines.append {S : List Nat} {n : Nat} {s s' r : List Char}
    {ts ts' : List (TokenKind × String)} (hn : S.headD 0 = n) (hs' : StartsLine s')
    (h : ScansLines S s ts ('\n' :: (List.replicate n ' ' ++ (s' ++ r))))
    (h' : ScansLines S s' ts' r) :
    ScansLines S (s ++ '\n' :: (List.replicate n ' ' ++ s')) (ts ++ ts') r := by
  intro st hd hl hS
  obtain ⟨toks₁, st₁, inner, hd₁, hl₁, hS₁, hin, hc₁, ht₁, he₁⟩ := h st hd hl hS
  have hlay : ∀ p, ∃ toks, layout st₁.indents n p = .ok (toks, S) ∧
      toks.map Token.bare = inner.map fun _ => layoutToken .dedent := by
    intro p
    refine ⟨_, by rw [hS₁]; exact layout_back (fun w hw => hn ▸ hin w hw) hn p, ?_⟩
    simp [Token.bare, layoutToken]
  obtain ⟨toks₂, st₂, ht₂, hd₂, hl₂, hS₂, he₂⟩ := scan_nextLine hd₁ hl₁ hc₁ hs' n r hlay
  obtain ⟨toks₃, st₃, inner', hd₃, hl₃, hS₃, hin', hc₃, ht₃, he₃⟩ := h' st₂ hd₂ hl₂ hS₂
  refine ⟨toks₁ ++ (toks₂ ++ toks₃), st₃, inner', hd₃, hl₃, hS₃, hin', hc₃, ?_, ?_⟩
  · rw [← ht₁, ← ht₃, List.map_append, List.map_append, ht₂]
    simp
  · simp only [List.append_assoc, List.cons_append]
    rw [he₁, he₂, he₃]
    cases scan st₃ r with
    | error e => rfl
    | ok ts => simp [Except.map]

/-- Lines that are further in behind a line yield an indented block. -/
theorem ScansLines.suite {S : List Nat} {m : Nat} {s s' r : List Char}
    {ts ts' : List (TokenKind × String)} (hm : S.headD 0 < m) (hs' : StartsLine s')
    (h : Scans 0 s ts 0 ('\n' :: (List.replicate m ' ' ++ (s' ++ r)))) (hne : ts ≠ [])
    (h' : ScansLines (m :: S) s' ts' r) :
    ScansLines S (s ++ '\n' :: (List.replicate m ' ' ++ s')) (ts ++ Stmt.suiteTokens ts') r := by
  intro st hd hl hS
  obtain ⟨toks₁, st₁, ht₁, hd₁, hS₁, hc₁, hi₁, he₁⟩ := h st hd (.inl hl)
  have hl₁ : st₁.lineStart = false := hi₁.resolve_right (by omega)
  have hc₁ : st₁.content = true := by simp [hc₁, hne]
  have hlay : ∀ p, ∃ toks, layout st₁.indents m p = .ok (toks, m :: S) ∧
      toks.map Token.bare = [layoutToken .indent] := by
    intro p
    rw [hS₁, hS]
    exact ⟨_, layout_deeper hm p, rfl⟩
  obtain ⟨toks₂, st₂, ht₂, hd₂, hl₂, hS₂, he₂⟩ := scan_nextLine hd₁ hl₁ hc₁ hs' m r hlay
  obtain ⟨toks₃, st₃, inner, hd₃, hl₃, hS₃, hin, hc₃, ht₃, he₃⟩ := h' st₂ hd₂ hl₂ hS₂
  refine ⟨toks₁ ++ (toks₂ ++ toks₃), st₃, inner ++ [m], hd₃, hl₃, by simp [hS₃], ?_, hc₃, ?_, ?_⟩
  · intro w hw
    rcases List.mem_append.1 hw with hw | hw
    · exact Nat.lt_trans hm (hin w hw)
    · rw [List.mem_singleton.1 hw]
      exact hm
  · rw [← ht₁, ← ht₃, List.map_append, List.map_append, ht₂]
    simp [Stmt.suiteTokens]
  · simp only [List.append_assoc, List.cons_append]
    rw [he₁, he₂, he₃]
    cases scan st₃ r with
    | error e => rfl
    | ok ts => simp [Except.map]

end Lexer

namespace Stmt

open Lexer

variable {fractions : Binary64 → Bool}

/-- Marks that are lines outside of brackets: each is legible in front of its end, or a comment. -/
inductive IsLines : List Mark → Prop where
  | line {ms : List Mark} (starts : StartsLine (Style.kept.text ms))
    (legible : ∀ r : List Char, (∀ c ∈ r.head?, c = '\n') → Legible 0 ms 0 r) : IsLines ms
  | comment {text : String} (h : isCommentText text = true) : IsLines [.comment text]
  | append {ms ms' : List Mark} (n : Nat) (h : IsLines ms) (h' : IsLines ms') :
    IsLines (ms ++ .lineBreak n :: ms')

/-- Whether marks that start a line indented by `n` yield the tokens of whole statements, whatever
ends their last line. -/
structure LinesAt (n : Nat) (ms : List Mark) (ts : List (TokenKind × String)) : Prop where
  starts : StartsLine (Style.kept.text ms)
  lines : IsLines ms
  scans (S : List Nat) (r : List Char) : S.headD 0 = n → (∀ c ∈ r.head?, c = '\n') →
    ScansLines S (Style.kept.text ms) ts r

/-- Marks that yield no token have no text or start with what is blank. -/
theorem tokensOf_ne_nil {ms : List Mark} (h : StartsLine (Style.kept.text ms)) :
    tokensOf ms ≠ [] := by
  obtain ⟨c, cs, he, -, hc⟩ := h
  cases ms with
  | nil => cases he
  | cons m ms =>
    intro hm
    have hm : m.tokens = [] := (List.append_eq_nil_iff.1 hm).1
    have blank (c' : Char) (r : List Char) (hb : Text.isBlank c' = true)
        (he' : c' :: r = c :: cs) : False := by
      obtain rfl : c' = c := (List.cons.inj he').1
      simp [hb] at hc
    cases m with
    | plain t =>
      have ht : t = " " := by
        by_cases ht : t = " "
        · exact ht
        · rw [Mark.tokens, if_neg ht] at hm
          split at hm <;> cases hm
      subst ht
      exact blank ' ' _ (by decide) he
    | operator t =>
      rw [Mark.tokens] at hm
      split at hm
      · cases hm
      · split at hm <;> cases hm
    | literal t =>
      rw [Mark.tokens] at hm
      split at hm <;> cases hm
    | lineBreak n => exact blank '\n' _ (by decide) he
    | _ => cases hm

/-- The end of a line is spelled with the indentation of the next one. -/
theorem text_lineBreak (n : Nat) (ms : List Mark) : Style.kept.text (.lineBreak n :: ms) =
    '\n' :: (List.replicate n ' ' ++ Style.kept.text ms) := rfl

/-- Statements at one indentation yield their tokens one after the other. -/
theorem LinesAt.append {n : Nat} {ms ms' : List Mark} {ts ts' : List (TokenKind × String)}
    (h : LinesAt n ms ts) (h' : LinesAt n ms' ts') :
    LinesAt n (ms ++ .lineBreak n :: ms') (ts ++ ts') := by
  refine ⟨?_, .append n h.lines h'.lines, fun S r hS hr => ?_⟩
  · rw [Style.text_append]
    exact h.starts.append _
  · rw [Style.text_append, text_lineBreak]
    refine .append hS h'.starts (h.scans S _ hS ?_) (h'.scans S r hS hr)
    exact fun c hc => by simpa [eq_comm] using hc

/-- So do the statements of a block. -/
theorem linesAt_block {n : Nat} {s : Stmt} {ss : Block}
    (h : ∀ s' ∈ s :: ss, LinesAt n (s'.layout n) (s'.tokens n)) :
    LinesAt n (s.layout n ++ layoutBlock ss n) (blockTokens (s :: ss) n) := by
  induction ss generalizing s with
  | nil =>
    rw [layoutBlock, blockTokens, blockTokens, List.append_nil, List.append_nil]
    exact h s List.mem_cons_self
  | cons s' ss ih =>
    rw [layoutBlock, blockTokens]
    exact (h s List.mem_cons_self).append (ih fun s he => h s (List.mem_cons_of_mem _ he))

private theorem linesAt_simple {n : Nat} {ms : List Mark} (hs : StartsLine (Style.kept.text ms))
    (h : ∀ r : List Char, (∀ c ∈ r.head?, c = '\n') → Legible 0 ms 0 r) :
    LinesAt n ms (tokensOf ms ++ [layoutToken .newline]) :=
  ⟨hs, .line hs h, fun _ _ _ hr => .of_scans (scans_of_legible (h _ hr)) (tokensOf_ne_nil hs)⟩

/-- The head of a compound statement with its block. -/
theorem linesAt_suite {n : Nat} {ms : List Mark} {body : Block}
    (hs : StartsLine (Style.kept.text ms))
    (hms : ∀ r : List Char, (∀ c ∈ r.head?, c = '\n') → Legible 0 ms 0 r)
    (h : ∀ s ∈ body, LinesAt (n + blockIndent) (s.layout (n + blockIndent))
      (s.tokens (n + blockIndent))) :
    LinesAt n (ms ++ layoutBlock body (n + blockIndent))
      (tokensOf ms ++ bodyTokens body (blockTokens body (n + blockIndent))) := by
  cases body with
  | nil =>
    rw [layoutBlock, List.append_nil]
    exact linesAt_simple hs hms
  | cons s ss =>
    have hb := linesAt_block h
    refine ⟨?_, .append _ (.line hs hms) hb.lines, fun S r hS hr => ?_⟩
    · rw [Style.text_append]
      exact hs.append _
    · have hm : S.headD 0 < n + blockIndent := by
        rw [hS]
        exact Nat.lt_add_of_pos_right (by decide)
      rw [layoutBlock, Style.text_append, text_lineBreak]
      refine .suite hm hb.starts ?_ (tokensOf_ne_nil hs) (hb.scans _ r rfl hr)
      refine scans_of_legible (hms _ ?_)
      exact fun c hc => by simpa [eq_comm] using hc

/-- A compound statement in front of its `else`. -/
theorem linesAt_else {n : Nat} {ms : List Mark} {ts : List (TokenKind × String)} {chained : Bool}
    {orelse : Block} (h : LinesAt n ms ts)
    (ho : orelse ≠ [] → ∃ ms', layoutElse chained orelse n = .lineBreak n :: ms' ∧
      LinesAt n ms' (elseTokens chained orelse n)) :
    LinesAt n (ms ++ layoutElse chained orelse n) (ts ++ elseTokens chained orelse n) := by
  cases orelse with
  | nil =>
    rw [layoutElse, elseTokens, List.append_nil, List.append_nil]
    exact h
  | cons s ss =>
    obtain ⟨ms', he, h'⟩ := ho (by simp)
    rw [he]
    exact h.append h'

private theorem legible_tail {e : Expr} (h : e.IsLegible) (n : Nat) {r : List Char}
    (hr : ∀ c ∈ r.head?, c = '\n') : Legible 0 (e.layout n ++ [.colon]) 0 r := by
  refine .append (h.inline n 0 _ (Delimited.or (.cons (by decide)) _)) ?_
  refine Expr.legible_colon (fun c hc => ?_) (.nil 0 r)
  rw [hr c hc]
  decide

/-- The layout of an `if` or `elif`. -/
def layoutIf (word : String) (test : Expr) (body orelse : Block) (n : Nat) : List Mark :=
  .keyword word :: .blank :: (test.layout n ++ .colon ::
    (layoutBlock body (n + blockIndent) ++ layoutElse true orelse n))

/-- The tokens of an `if` or `elif`. -/
def ifTokens (word : String) (test : Expr) (body orelse : Block) (n : Nat) :
    List (TokenKind × String) :=
  (.name, word) :: (tokensOf (test.layout n) ++ (.op, ":") ::
    (bodyTokens body (blockTokens body (n + blockIndent)) ++ elseTokens true orelse n))

private theorem startsLine_word {m : Mark} {t : String} (hm : m.kept = t.toList) (ht : IsWord t)
    (ms : List Mark) : StartsLine (Style.kept.text (m :: ms)) := by
  obtain ⟨c, cs, he, -, -, hc⟩ := Starts.of_isWord hm ht ms
  exact ⟨c, cs, he, hc⟩

private theorem linesAt_if {word : String} (hw : IsWord word) {test : Expr} {body orelse : Block}
    {n : Nat}
    (ht : test.IsLegible)
    (h : ∀ s ∈ body, LinesAt (n + blockIndent) (s.layout (n + blockIndent))
      (s.tokens (n + blockIndent)))
    (ho : orelse ≠ [] → ∃ ms', layoutElse true orelse n = .lineBreak n :: ms' ∧
      LinesAt n ms' (elseTokens true orelse n)) :
    LinesAt n (layoutIf word test body orelse n) (ifTokens word test body orelse n) := by
  have hsuite : LinesAt n _ _ :=
    linesAt_suite (startsLine_word rfl hw (.blank :: (test.layout n ++ [.colon])))
    (fun r hr => Expr.legible_head hw (legible_tail ht n hr)) h
  have hall := linesAt_else hsuite ho
  have hms : layoutIf word test body orelse n =
      (.keyword word :: .blank :: (test.layout n ++ [.colon])) ++
        layoutBlock body (n + blockIndent) ++ layoutElse true orelse n := by
    simp [layoutIf]
  have hts : ifTokens word test body orelse n =
      tokensOf (.keyword word :: .blank :: (test.layout n ++ [.colon])) ++
        bodyTokens body (blockTokens body (n + blockIndent)) ++ elseTokens true orelse n := by
    simp [ifTokens]
  rw [hms, hts]
  exact hall

/-- The layout of a loop with its `else`. -/
theorem linesAt_loop {ms : List Mark} {ts : List (TokenKind × String)} {body orelse : Block}
    {n : Nat} (hs : StartsLine (Style.kept.text ms))
    (hms : ∀ r : List Char, (∀ c ∈ r.head?, c = '\n') → Legible 0 ms 0 r) (hts : tokensOf ms = ts)
    (h : ∀ s ∈ body, LinesAt (n + blockIndent) (s.layout (n + blockIndent))
      (s.tokens (n + blockIndent)))
    (ho : orelse ≠ [] → ∃ ms', layoutElse false orelse n = .lineBreak n :: ms' ∧
      LinesAt n ms' (elseTokens false orelse n)) :
    LinesAt n (ms ++ (layoutBlock body (n + blockIndent) ++ layoutElse false orelse n))
      (ts ++ (bodyTokens body (blockTokens body (n + blockIndent)) ++
        elseTokens false orelse n)) := by
  subst hts
  rw [← List.append_assoc, ← List.append_assoc]
  exact linesAt_else (linesAt_suite hs hms h) ho

/-- An `else` with its block. -/
theorem linesAt_elseBlock {s : Stmt} {ss : Block} {n : Nat}
    (h : ∀ s' ∈ s :: ss, LinesAt (n + blockIndent) (s'.layout (n + blockIndent))
      (s'.tokens (n + blockIndent))) :
    LinesAt n ([.keyword "else", .colon] ++ layoutBlock (s :: ss) (n + blockIndent))
      ([(.name, "else"), (.op, ":")] ++ suiteTokens (blockTokens (s :: ss) (n + blockIndent))) := by
  have hw : IsWord "else" := .of_toList 'e' ['l', 's', 'e'] rfl (by decide)
  refine linesAt_suite (startsLine_word (m := .keyword "else") rfl hw [.colon]) ?_ h
  intro r hr
  refine .cons hw (fun c hc => ?_) rfl (Expr.legible_colon (fun c hc => ?_) (.nil 0 r))
  · obtain rfl : ':' = c := by simpa [Mark.colon, Mark.kept, Mark.source] using hc
    decide
  · rw [hr c hc]
    decide

private theorem delimited_of_newline {r : List Char} (hr : ∀ c ∈ r.head?, c = '\n') :
    Delimited r := by
  intro c hc
  rw [hr c hc]
  decide

private theorem legible_targets {targets : List Expr} (h : ∀ t ∈ targets, t.IsLegible) {n : Nat}
    {ms : List Mark} {r : List Char} (hms : Legible 0 ms 0 r) :
    Legible 0
      (targets.flatMap (fun t => t.layout n ++ [.blank, .operator "=", .blank]) ++ ms) 0 r := by
  induction targets with
  | nil => exact hms
  | cons t targets ih =>
    rw [List.flatMap_cons, List.append_assoc, List.append_assoc]
    refine .append ((h t List.mem_cons_self).inline n 0 _ ((Expr.delimited_blank _ r).or _)) ?_
    exact Expr.legible_infix (by decide) (ih fun t ht => h t (List.mem_cons_of_mem _ ht))

/-- The text of a kept comment between parentheses. -/
theorem scans_commentArguments {text : List Char} (h : '\n' ∉ text) (d : Nat) (r : List Char) :
    Scans d ('(' :: '"' :: (Paragraph.quoteComment text ++ ['"', ')']))
      [(.op, "("), (.str, String.ofList ('"' :: (Paragraph.quoteComment text ++ ['"']))),
        (.op, ")")]
      d r := by
  let inside := Paragraph.quoteComment text ++ ['"']
  have hstr : Scans (d + 1) ('"' :: inside) [(.str, String.ofList ('"' :: inside))] (d + 1)
      (')' :: r) := by
    refine scans_str (.inr rfl) ?_
    rw [List.append_assoc]
    exact closeQuote?_quoteComment h (')' :: r)
  have hclose : Scans (d + 1) [')'] [(.op, ")")] d r :=
    scans_bracket (by decide) (by simp [depthAfter?])
  have hopen : Scans d ['('] [(.op, "(")] (d + 1) ('"' :: inside ++ ([')'] ++ r)) :=
    scans_bracket (by decide) rfl
  have hall := Scans.append (by simpa using hopen) (hstr.append hclose)
  simpa [inside] using hall

/-- A comment that is kept yields the tokens of its call. -/
theorem scans_comment {text : String} (h : isCommentText text = true) (r : List Char) :
    Scans 0 (Style.kept.text [.comment text]) (tokensOf [.comment text]) 0 r := by
  have hw : IsWord commentName :=
    .of_toList '_' ['_', 'c', 'o', 'm', 'm', 'e', 'n', 't'] rfl (by decide)
  have hn : '\n' ∉ text.toList := by simpa using (Bool.and_eq_true_iff.1 h).2
  have hargs := scans_commentArguments hn 0 r
  have hname := scans_word hw (d := 0)
    (r := '(' :: '"' :: (Paragraph.quoteComment text.toList ++ ['"', ')']) ++ r) fun c hc => by
      obtain rfl : '(' = c := by simpa using hc
      decide
  simpa [Mark.kept, Mark.tokens] using hname.append hargs

private theorem linesAt_comment {text : String} (h : isCommentText text = true) (n : Nat) :
    LinesAt n [.comment text] (tokensOf [.comment text] ++ [layoutToken .newline]) :=
  ⟨⟨'_', _, rfl, by decide⟩, .comment h,
    fun _ r _ _ => .of_scans (scans_comment h r) (by simp [Mark.tokens])⟩

private theorem linesAt_elseOf {chained : Bool} {orelse : Block} {n : Nat} (hne : orelse ≠ [])
    (h : ∀ s ∈ orelse, ∀ n, LinesAt n (s.layout n) (s.tokens n))
    (helif : ∀ p test body orelse', ifElse p test body orelse' ∈ orelse →
      LinesAt n (layoutIf "elif" test body orelse' n) (ifTokens "elif" test body orelse' n)) :
    ∃ ms', layoutElse chained orelse n = .lineBreak n :: ms' ∧
      LinesAt n ms' (elseTokens chained orelse n) := by
  by_cases hc : ∃ p test body orelse', orelse = [ifElse p test body orelse']
  · obtain ⟨p, test, body, orelse', rfl⟩ := hc
    cases chained with
    | true =>
      refine ⟨layoutIf "elif" test body orelse' n, by rw [layoutElse]; rfl, ?_⟩
      rw [elseTokens]
      exact helif p test body orelse' List.mem_cons_self
    | false =>
      have hb := linesAt_elseBlock (n := n) (fun s hs => h s hs _)
      refine ⟨_, by rw [layoutElse]; rfl, ?_⟩
      rw [elseTokens]
      simpa [layoutBlock, blockTokens] using hb
  · obtain ⟨s, ss, rfl⟩ := List.exists_cons_of_ne_nil hne
    have hb := linesAt_elseBlock (n := n) (fun s hs => h s hs _)
    have hi : ∀ p test body orelse', s = ifElse p test body orelse' → ss = [] → False := by
      rintro p test body orelse' rfl rfl
      exact hc ⟨p, test, body, orelse', rfl⟩
    refine ⟨_, by rw [layoutElse]; exact hi, ?_⟩
    rw [elseTokens]
    · simpa [layoutBlock, blockTokens] using hb
    · exact hi

variable {fractions : Binary64 → Bool}

/-- A statement that is spelled yields its tokens wherever it starts a line. -/
theorem linesAt_of_isSpelled (hf : ∀ x, fractions x = true → x.IsWritten) {s : Stmt}
    (h : s.isSpelled fractions = true) (n : Nat) : LinesAt n (s.layout n) (s.tokens n) := by
  have legible {e : Expr} (h : e.isSlice = false ∧ e.isSpelled fractions = true) : e.IsLegible :=
    Expr.isLegible_of_isSpelled hf h.2
  suffices hs : (∀ n, LinesAt n (s.layout n) (s.tokens n)) ∧ ∀ p test body orelse,
      s = ifElse p test body orelse → ∀ n,
        LinesAt n (layoutIf "elif" test body orelse n) (ifTokens "elif" test body orelse n) from
    hs.1 n
  clear n
  have hkeyword (w : String) (hw : IsWord w) (n : Nat) :
      LinesAt n [.keyword w] (tokensOf [.keyword w] ++ [layoutToken .newline]) := by
    refine linesAt_simple (startsLine_word rfl hw []) fun r hr => ?_
    refine .cons hw (fun c hc => ?_) rfl (.nil 0 r)
    rw [hr c hc]
    simp [Mark.endsBefore, Text.isNameChar, Char.isAlphanum, isAlpha_eq, Char.isDigit]
  have startsLine {e : Expr} (he : e.IsLegible) (n : Nat) (ms : List Mark) :
      StartsLine (Style.kept.text (e.layout n ++ ms)) := by
    obtain ⟨c, cs, hc, -, -, hn⟩ := (he.starts n).append ms
    exact ⟨c, cs, hc, hn⟩
  induction s using partsInduction with
  | assign p targets value =>
    obtain ⟨hne, ht, hv⟩ := isSpelled_iff.1 h
    refine ⟨fun n => ?_, (by simp)⟩
    rw [tokens, layout]
    · obtain ⟨t, ts, rfl⟩ := List.exists_cons_of_ne_nil hne
      refine linesAt_simple ?_ fun r hr => ?_
      · rw [List.flatMap_cons, List.append_assoc, List.append_assoc]
        exact startsLine (legible (ht t List.mem_cons_self)) n _
      · exact legible_targets (fun t ht' => legible (ht t ht'))
          ((legible hv).inline n 0 r ((delimited_of_newline hr).or _))
    all_goals simp
  | update p target op value =>
    obtain ⟨ht, hv⟩ := isSpelled_iff.1 h
    refine ⟨fun n => ?_, (by simp)⟩
    rw [tokens, layout]
    · refine linesAt_simple (startsLine (legible ht) n _) fun r hr => ?_
      refine .append ((legible ht).inline n 0 _ ((Expr.delimited_blank _ r).or _)) ?_
      refine Expr.legible_infix ?_ ((legible hv).inline n 0 r ((delimited_of_newline hr).or _))
      cases op <;> decide
    all_goals simp
  | ifElse p test body orelse ihb iho =>
    obtain ⟨ht, hb, ho⟩ := isSpelled_iff.1 h
    have hif (w : String) (hw : IsWord w) (n : Nat) :
        LinesAt n (layoutIf w test body orelse n) (ifTokens w test body orelse n) := by
      refine linesAt_if hw (legible ht) (fun s hs => (ihb s hs (hb s hs)).1 _) fun hne => ?_
      refine linesAt_elseOf hne (fun s hs => (iho s hs (ho s hs)).1) ?_
      exact fun p' test' body' orelse' hs => (iho _ hs (ho _ hs)).2 p' test' body' orelse' rfl n
    refine ⟨fun n => ?_, ?_⟩
    · rw [tokens, layout]
      exact hif "if" (.of_toList 'i' ['f'] rfl (by decide)) n
    · rintro p' test' body' orelse' he n
      cases he
      exact hif "elif" (.of_toList 'e' ['l', 'i', 'f'] rfl (by decide)) n
  | forEach p target iter body orelse ihb iho =>
    obtain ⟨ht, hi, hb, ho⟩ := isSpelled_iff.1 h
    have hw : IsWord "for" := .of_toList 'f' ['o', 'r'] rfl (by decide)
    refine ⟨fun n => ?_, (by simp)⟩
    have hs : StartsLine (Style.kept.text (.keyword "for" :: .blank :: (target.layout n ++
        .blank :: .operator "in" :: .blank :: (iter.layout n ++ [.colon])))) :=
      startsLine_word rfl hw _
    have hloop := linesAt_loop (n := n) hs ?_ rfl
      (fun s hs => (ihb s hs (hb s hs)).1 _) fun hne => linesAt_elseOf hne
        (fun s hs => (iho s hs (ho s hs)).1) ?_
    · have hin : (Mark.operator "in").tokens = [(.name, "in")] := by decide
      rw [tokens, layout]
      simpa [hin] using hloop
    · intro r hr
      refine Expr.legible_head hw (.append ((legible ht).inline n 0 _ ?_) ?_)
      · exact (Expr.delimited_blank _ r).or _
      · exact Expr.legible_infix (by decide) (legible_tail (legible hi) n hr)
    · exact fun p' test' body' orelse' hs => (iho _ hs (ho _ hs)).2 p' test' body' orelse' rfl n
  | whileDo p test body orelse ihb iho =>
    obtain ⟨ht, hb, ho⟩ := isSpelled_iff.1 h
    have hw : IsWord "while" := .of_toList 'w' ['h', 'i', 'l', 'e'] rfl (by decide)
    refine ⟨fun n => ?_, (by simp)⟩
    have hs : StartsLine (Style.kept.text (.keyword "while" :: .blank ::
        (test.layout n ++ [.colon]))) := startsLine_word rfl hw _
    have hhead (r : List Char) (hr : ∀ c ∈ r.head?, c = '\n') := Expr.legible_head hw
      (legible_tail (legible ht) n hr)
    have hloop := linesAt_loop (n := n) hs hhead rfl
      (fun s hs => (ihb s hs (hb s hs)).1 _) fun hne => linesAt_elseOf hne
        (fun s hs => (iho s hs (ho s hs)).1) ?_
    · rw [tokens, layout]
      simpa using hloop
    · exact fun p' test' body' orelse' hs => (iho _ hs (ho _ hs)).2 p' test' body' orelse' rfl n
  | expr p value =>
    obtain ⟨hv, hc⟩ := isSpelled_iff.1 h
    refine ⟨fun n => ?_, (by simp)⟩
    rw [tokens, layout]
    · cases ht : (expr p value).comment? with
      | some text =>
        rw [isKept, ht] at hc
        exact linesAt_comment hc n
      | none =>
        have hs := startsLine (legible hv) n []
        rw [List.append_nil] at hs
        exact linesAt_simple hs fun r hr =>
          (legible hv).inline n 0 r ((delimited_of_newline hr).or _)
    all_goals simp
  | pass p => exact ⟨hkeyword "pass" (.of_toList 'p' ['a', 's', 's'] rfl (by decide)), (by simp)⟩
  | breakOut p =>
    exact ⟨hkeyword "break" (.of_toList 'b' ['r', 'e', 'a', 'k'] rfl (by decide)), (by simp)⟩
  | nextRound p =>
    refine ⟨hkeyword "continue" ?_, (by simp)⟩
    exact .of_toList 'c' ['o', 'n', 't', 'i', 'n', 'u', 'e'] rfl (by decide)

end Stmt

/-- The tokens of a block that is spelled are those of its statements and the end marker. -/
theorem tokenize_layout {fractions : Binary64 → Bool}
    (hf : ∀ x, fractions x = true → x.IsWritten) {b : Block} (h : b.isSpelled fractions = true) :
    ∃ toks, tokenize (Style.kept.text b.layout) = .ok toks ∧
      toks.map Token.bare = Stmt.blockTokens b 0 ++ [layoutToken .endMarker] := by
  have h := Stmt.isSpelled_block.1 h
  cases b with
  | nil =>
    refine ⟨[⟨.endMarker, "", ⟨1, 1⟩⟩], ?_, rfl⟩
    rw [tokenize, Block.layout]
    show Lexer.scan .init [] = _
    rw [Lexer.scan]
    rfl
  | cons s ss =>
    have hb := Stmt.linesAt_block fun s' hs => Stmt.linesAt_of_isSpelled hf (h s' hs) 0
    have hline := hb.starts.isBlankLine
    have hi := Lexer.indentation_blanks hb.starts 0 0
    obtain ⟨c, cs, he, -⟩ := hb.starts
    rw [he] at hline hi
    have hlay : Lexer.layout Lexer.State.init.indents 0 (Lexer.advance Lexer.State.init.pos
        ((c :: cs).length - (c :: cs).length)) = .ok ([], []) := rfl
    have hscan := Lexer.scan_line rfl rfl hi hline rfl hlay
    obtain ⟨toks, st', inner, hd, hl, hS, hin, hcont, ht, hr⟩ := hb.scans [] [] rfl (by rintro _ ⟨⟩)
      { Lexer.State.init with
        pos := Lexer.advance Lexer.State.init.pos ((c :: cs).length - (c :: cs).length)
        lineStart := false } rfl rfl rfl
    rw [List.append_nil] at hr hS
    have hfinish : Lexer.scan st' [] = .ok (⟨.newline, "", st'.pos⟩ ::
        (inner.map (fun _ => ⟨.dedent, "", st'.pos⟩) ++ [⟨.endMarker, "", st'.pos⟩])) := by
      rw [Lexer.scan, Lexer.finish, if_neg (by omega), hcont, hS]
      rfl
    refine ⟨toks ++ (⟨.newline, "", st'.pos⟩ ::
      (inner.map (fun _ => ⟨.dedent, "", st'.pos⟩) ++ [⟨.endMarker, "", st'.pos⟩])), ?_, ?_⟩
    · rw [tokenize, Block.layout, he, hscan]
      rw [he] at hr
      refine (congrArg _ (hr.trans (congrArg _ hfinish))).trans ?_
      rfl
    · rw [← ht]
      simp [Token.bare, layoutToken]

end ValidUsage
