import ValidUsage.Proofs.ScanSound

/-!
# What stands between tokens

The texts of the tokens are pieces of the text, in order. Between them stand blanks, comments and
backslashes that join lines, and nothing else but for one thing: a line that starts with a carriage
return is left up to its end, whatever else it has.
-/

namespace ValidUsage
namespace Lexer

open Paragraph (EndsLine)

/-- Whether the rest of a line has nothing but blanks and a comment. -/
def isIdle (u : List Char) : Bool :=
  match u.dropWhile fun c => c = ' ' || c = '\t' || c = '\r' || c = '\x0c' with
  | [] => true
  | c :: _ => c = '#'

/-- Whether a line, behind its indentation, has a carriage return in front of something that is
neither a blank nor a comment. -/
def losesLine (line : List Char) : Bool :=
  match (indentation 0 line).2 with
  | '\r' :: u => !isIdle u
  | _ => false

/-- Whether a text goes on with another one behind something that is no token: a blank, a comment
or a backslash that joins lines. -/
inductive Skips : List Char → List Char → Prop
  | blank {c : Char} {s : List Char} (hc : c = ' ' ∨ c = '\t' ∨ c = '\x0c') : Skips (c :: s) s
  | carriage {s : List Char} : Skips ('\r' :: s) s
  | comment {u s : List Char} (hu : '\n' ∉ u) (hs : EndsLine s) : Skips ('#' :: (u ++ s)) s
  | join {s : List Char} : Skips ('\\' :: '\n' :: s) s
  | joinCarriage {s : List Char} : Skips ('\\' :: '\r' :: '\n' :: s) s

/-- Whether a text is made of the texts of tokens, with blanks, comments and joining backslashes
between them. The text starts in an indentation or not (`fresh`), and with a number of open
brackets. If a text may lose lines, outside of brackets what a line has behind its indentation may
be missing. -/
inductive Covers (lost : Bool) : Bool → Nat → List Char → List Token → Prop
  /-- The end of the text. -/
  | done {fresh : Bool} {depth : Nat} : Covers lost fresh depth [] []
  /-- A layout token stands for no text. -/
  | layout {fresh : Bool} {depth : Nat} {t : Token} {s : List Char} {ts : List Token}
      (ht : t.kind.isLayout = true) (htext : t.text = "") (h : Covers lost fresh depth s ts) :
      Covers lost fresh depth s (t :: ts)
  /-- Any other token stands for its text. -/
  | token {fresh : Bool} {depth depth' : Nat} {t : Token} {c : Char} {u s : List Char}
      {ts : List Token} (ht : t.kind.isLayout = false) (htext : t.text.toList = c :: u)
      (hdepth : depthAfter? c depth = some depth') (h : Covers lost false depth' s ts) :
      Covers lost fresh depth (t.text.toList ++ s) (t :: ts)
  /-- A blank, which may belong to an indentation. -/
  | blank {fresh : Bool} {depth : Nat} {c : Char} {s : List Char} {ts : List Token}
      (hc : c = ' ' ∨ c = '\t' ∨ c = '\x0c') (h : Covers lost fresh depth s ts) :
      Covers lost fresh depth (c :: s) ts
  /-- Anything else that is no token. -/
  | skip {fresh : Bool} {depth : Nat} {s r : List Char} {ts : List Token} (hs : Skips s r)
      (h : Covers lost false depth r ts) : Covers lost fresh depth s ts
  /-- The end of a line. -/
  | newline {fresh : Bool} {depth : Nat} {s : List Char} {ts : List Token}
      (h : Covers lost true depth s ts) : Covers lost fresh depth ('\n' :: s) ts
  /-- A line that is lost. -/
  | line {u s : List Char} {ts : List Token} (hlost : lost = true) (hu : '\n' ∉ u)
      (hidle : isIdle u = false) (hs : EndsLine s) (h : Covers lost false 0 s ts) :
      Covers lost true 0 ('\r' :: (u ++ s)) ts

section Pieces

variable {lost fresh : Bool} {depth : Nat} {u s : List Char} {ts : List Token}

/-- Layout in front of tokens covers nothing. -/
theorem Covers.append_layout {l : List Token} (hl : ∀ t ∈ l, t.kind.isLayout = true ∧ t.text = "")
    (h : Covers lost fresh depth s ts) : Covers lost fresh depth s (l ++ ts) := by
  induction l with
  | nil => exact h
  | cons t l ih =>
    obtain ⟨⟨ht, htext⟩, hl⟩ := List.forall_mem_cons.1 hl
    exact .layout ht htext (ih hl)

/-- An indentation needs no token. -/
theorem Covers.indentation (hu : ∀ c ∈ u, c = ' ' ∨ c = '\t' ∨ c = '\x0c')
    (h : Covers lost fresh depth s ts) : Covers lost fresh depth (u ++ s) ts := by
  induction u with
  | nil => exact h
  | cons c u ih =>
    obtain ⟨hc, hu⟩ := List.forall_mem_cons.1 hu
    exact .blank hc (ih hu)

/-- The rest of a line with nothing but blanks and a comment stands for no token. -/
theorem Covers.idle (hu : '\n' ∉ u) (hidle : isIdle u = true) (hs : EndsLine s)
    (h : ∀ fresh, Covers lost fresh depth s ts) : Covers lost fresh depth (u ++ s) ts := by
  induction u generalizing fresh with
  | nil => exact h fresh
  | cons c u ih =>
    have hu' : '\n' ∉ u := fun hm => hu (List.mem_cons_of_mem _ hm)
    by_cases hc : c = ' ' ∨ c = '\t' ∨ c = '\x0c'
    · have hrest : isIdle u = true := by rcases hc with rfl | rfl | rfl <;> exact hidle
      exact .blank hc (ih hu' hrest)
    by_cases hr : c = '\r'
    · subst hr
      exact .skip .carriage (ih hu' hidle)
    · have hhash : c = '#' := by
        rw [not_or, not_or] at hc
        simpa [isIdle, hc, hr] using hidle
      subst hhash
      exact .skip (.comment hu' hs) (h false)

/-- A text without tokens, comments and backslashes is blank, if it has not lost any lines. -/
theorem Covers.blanks (h : Covers false fresh depth s ts)
    (hts : ∀ t ∈ ts, t.kind.isLayout = true) (hs : '#' ∉ s ∧ '\\' ∉ s) :
    ∀ c ∈ s, c ∈ [' ', '\t', '\r', '\x0c', '\n'] := by
  induction h with
  | done => exact nofun
  | layout ht htext h ih => exact ih (List.forall_mem_cons.1 hts).2 hs
  | token ht htext hdepth h ih =>
    exact absurd (ht.symm.trans (List.forall_mem_cons.1 hts).1) nofun
  | blank hc h ih =>
    rw [List.mem_cons, not_or, List.mem_cons, not_or] at hs
    refine List.forall_mem_cons.2 ⟨?_, ih hts ⟨hs.1.2, hs.2.2⟩⟩
    rcases hc with rfl | rfl | rfl <;> decide
  | newline h ih => exact List.forall_mem_cons.2 ⟨by decide, ih hts (by simpa using hs)⟩
  | skip hskip h ih =>
    cases hskip with
    | blank hc =>
      rw [List.mem_cons, not_or, List.mem_cons, not_or] at hs
      refine List.forall_mem_cons.2 ⟨?_, ih hts ⟨hs.1.2, hs.2.2⟩⟩
      rcases hc with rfl | rfl | rfl <;> decide
    | carriage => exact List.forall_mem_cons.2 ⟨by decide, ih hts (by simpa using hs)⟩
    | comment => exact absurd List.mem_cons_self hs.1
    | join => exact absurd List.mem_cons_self hs.2
    | joinCarriage => exact absurd List.mem_cons_self hs.2
  | line hlost => exact absurd hlost nofun

end Pieces

/-! ## Steps -/

section Token

variable {st : State} {c : Char} {cs : List Char}

/-- What a step takes behind an indentation: a token, the end of a line, or something else that is
no token. -/
inductive Takes (st : State) (x : Step (c :: cs)) : Prop
  /-- A token with its text. -/
  | token {t : Token} {u : List Char} (tokens : x.tokens = [t]) (kind : t.kind.isLayout = false)
      (text : t.text.toList = c :: u) (split : cs = u ++ x.rest)
      (depth : depthAfter? c st.depth = some x.state.depth)
      (lineStart : x.state.lineStart = st.lineStart)
  /-- The end of a line, with a layout token or without one. -/
  | newline (char : c = '\n') (tokens : ∀ t ∈ x.tokens, t.kind = .newline ∧ t.text = "")
      (rest : x.rest = cs) (depth : x.state.depth = st.depth)
  /-- What is no token. -/
  | skip (tokens : x.tokens = []) (skips : Skips (c :: cs) x.rest)
      (depth : x.state.depth = st.depth) (lineStart : x.state.lineStart = st.lineStart)

/-- What the lexer reads for a token takes its text, or something that is no token. -/
theorem takes_token {x : Step (c :: cs)} (h : token st c cs = .ok x) : Takes st x := by
  cases move_token h with
  | token tokens kind text start split after alone state =>
    exact .token tokens kind text split (by rw [state]; exact after) (by rw [state])
  | newline char ended tokens rest state =>
    refine .newline char (fun t ht => ?_) rest (by rw [state])
    rw [tokens] at ht
    split at ht
    · rw [List.mem_singleton.1 ht]
      exact ⟨rfl, rfl⟩
    · exact absurd ht List.not_mem_nil
  | blank char tokens rest state =>
    refine .skip tokens ?_ (by rw [state]) (by rw [state])
    rw [rest]
    rcases char with rfl | rfl | rfl | rfl
    · exact .blank (.inl rfl)
    · exact .blank (.inr (.inl rfl))
    · exact .carriage
    · exact .blank (.inr (.inr rfl))
  | comment char split inLine ends tokens state =>
    refine .skip tokens ?_ (by rw [state]) (by rw [state])
    generalize x.rest = r at split ends ⊢
    subst char split
    exact .comment inLine ends
  | join char split carriage tokens state =>
    refine .skip tokens ?_ (by rw [state]) (by rw [state])
    generalize x.rest = r at split ⊢
    subst char split
    rcases carriage with rfl | rfl
    · exact .join
    · exact .joinCarriage

/-- What is skipped leaves the end of the text. -/
theorem Skips.suffix {s r : List Char} (h : Skips (c :: s) r) : r <:+ s := by
  cases h with
  | blank => exact List.suffix_rfl
  | carriage => exact List.suffix_rfl
  | comment => exact List.suffix_append _ _
  | join => exact List.suffix_cons _ _
  | joinCarriage => exact (List.suffix_cons _ _).trans (List.suffix_cons _ _)

end Token

/-! ## Texts -/

/-- Whether a text in front of another one ends with a line, or is empty. -/
def EndsWithLine (front : List Char) : Prop := ∀ c ∈ front.getLast?, c = '\n'

section Lines

variable {front line s : List Char}

/-- A text ends with a line when its last part does. -/
theorem EndsWithLine.append (h : line.getLast? = some '\n') : EndsWithLine (front ++ line) := by
  intro c hc
  rw [List.getLast?_append, h] at hc
  exact (Option.some.inj hc).symm

/-- What stands between the ends of lines is a line. -/
theorem mem_splitOn (hfront : EndsWithLine front) (hline : '\n' ∉ line) (hs : EndsLine s) :
    line ∈ Text.splitOn '\n' (front ++ (line ++ s)) := by
  have hrest : line ∈ Text.splitOn '\n' (line ++ s) := by
    cases s with
    | nil => simp [Text.splitOn_of_notMem hline]
    | cons c s =>
      obtain rfl : c = '\n' := hs c rfl
      rw [Text.splitOn_append_cons, Text.splitOn_of_notMem hline]
      exact List.mem_append_left _ (List.mem_singleton_self line)
  rcases List.eq_nil_or_concat front with rfl | ⟨u, c, he⟩
  · exact hrest
  · obtain rfl : c = '\n' := hfront c (by simp [he])
    rw [he, List.concat_eq_append, List.append_assoc, List.singleton_append,
      Text.splitOn_append_cons]
    exact List.mem_append_right _ hrest

/-- A line that is taken for a blank one stands for no token; it is lost if it has anything. -/
theorem covers_blankLine {lost : Bool} {u : List Char} {ts : List Token}
    (hu : ∀ c ∈ u, c = ' ' ∨ c = '\t' ∨ c = '\x0c') (hblank : isBlankLine (line ++ s) = true)
    (hline : '\n' ∉ line) (hs : EndsLine s)
    (hlost : ∀ v, line = '\r' :: v → isIdle v = false → lost = true)
    (h : ∀ fresh, Covers lost fresh 0 s ts) : Covers lost true 0 (u ++ (line ++ s)) ts := by
  refine .indentation hu ?_
  cases line with
  | nil => exact h true
  | cons c v =>
    have hv : '\n' ∉ v := fun hm => hline (List.mem_cons_of_mem _ hm)
    have hc : c = '#' ∨ c = '\r' := by
      have hn : c ≠ '\n' := fun he => hline (he ▸ List.mem_cons_self)
      simpa [isBlankLine, hn] using hblank
    rcases hc with rfl | rfl
    · exact .skip (.comment hv hs) (h false)
    · cases hidle : isIdle v with
      | true => exact .skip .carriage (.idle hv hidle hs h)
      | false => exact .line (hlost v rfl hidle) hv hidle hs (h false)

end Lines

/-! ## Steps over a text -/

section Step

variable {st : State} {c : Char} {cs : List Char}

/-- What a step takes: a line that is taken for a blank one, with its end, or the indentation of
another line with what stands behind it, or what stands elsewhere. -/
inductive Advances (st : State) (x : Step (c :: cs)) : Prop
  | blankLine {u line tail : List Char} (start : st.lineStart = true ∧ st.depth = 0)
      (split : c :: cs = u ++ (line ++ tail)) (blanks : ∀ c ∈ u, c = ' ' ∨ c = '\t' ∨ c = '\x0c')
      (indent : (indentation 0 (u ++ line)).2 = line) (whole : '\n' ∉ line) (ends : EndsLine tail)
      (blank : isBlankLine (line ++ tail) = true) (tokens : x.tokens = [])
      (rest : x.rest = tail.tail) (depth : x.state.depth = 0)
  | textLine {u : List Char} {c' : Char} {cs' : List Char} {st' : State} {y : Step (c' :: cs')}
      {layoutTokens : List Token} {indents : List Nat} (start : st.lineStart = true ∧ st.depth = 0)
      (split : c :: cs = u ++ c' :: cs') (blanks : ∀ c ∈ u, c = ' ' ∨ c = '\t' ∨ c = '\x0c')
      (indent : (indentation 0 (c :: cs)).2 = c' :: cs') (full : isBlankLine (c' :: cs') = false)
      (token : token st' c' cs' = .ok y) (inLine : st'.lineStart = false) (depth : st'.depth = 0)
      (layout : layout st.indents (indentation 0 (c :: cs)).1 st'.pos = .ok (layoutTokens, indents))
      (tokens : x.tokens = layoutTokens ++ y.tokens) (rest : x.rest = y.rest)
      (state : x.state = y.state)
  | inside (token : token { st with lineStart := false } c cs = .ok x)

/-- A step takes a blank line, an indentation, or something within a line. -/
theorem advances_step {x : Step (c :: cs)} (h : step st c cs = .ok x) : Advances st x := by
  cases turn_step h with
  | blankLine start split blanks indent whole ends blank tokens rest state =>
    exact .blankLine start split blanks indent whole ends blank tokens rest (by rw [state, start.2])
  | textLine start split blanks indent full layout token tokens rest state =>
    exact .textLine start split blanks indent full token rfl start.2 layout tokens rest state
  | inside start token => exact .inside token

/-- Within a line, what a step takes ends the line if it says that the next one starts. -/
theorem Takes.split_rest {x : Step (c :: cs)} (h : Takes st x) (hst : st.lineStart = false) :
    ∃ taken, c :: cs = taken ++ x.rest ∧
      (x.state.lineStart = true → taken.getLast? = some '\n') := by
  have hinLine {b : Prop} (he : x.state.lineStart = st.lineStart)
      (hs : x.state.lineStart = true) : b := absurd ((he.trans hst).symm.trans hs) nofun
  cases h with
  | @token t u tokens kind text split depth lineStart =>
    exact ⟨c :: u, congrArg (c :: ·) split, hinLine lineStart⟩
  | newline char tokens rest depth => exact ⟨['\n'], by rw [rest, char]; rfl, fun _ => rfl⟩
  | skip tokens skips depth lineStart =>
    obtain ⟨u, hu⟩ := skips.suffix
    exact ⟨c :: u, congrArg (c :: ·) hu.symm, hinLine lineStart⟩

/-- What a step leaves follows the end of a line if the state says that it starts one. -/
theorem Advances.split_rest {x : Step (c :: cs)} (h : Advances st x) :
    ∃ taken, c :: cs = taken ++ x.rest ∧
      (x.state.lineStart = true → x.rest ≠ [] → taken.getLast? = some '\n') := by
  cases h with
  | @blankLine u line tail start split blanks indent whole ends blank tokens rest depth =>
    cases tail with
    | nil => exact ⟨c :: cs, by simp [rest], fun _ hne => absurd rest hne⟩
    | cons d r =>
      obtain rfl : d = '\n' := ends d rfl
      exact ⟨u ++ line ++ ['\n'], by rw [rest, split]; simp, fun _ _ => by simp⟩
  | @textLine u c' cs' st' y layoutTokens indents start split blanks indent full token inLine depth
      layout tokens rest state =>
    obtain ⟨taken, htaken, hends⟩ := (takes_token token).split_rest inLine
    have hsplit : c :: cs = u ++ (taken ++ y.rest) := split.trans (congrArg (u ++ ·) htaken)
    refine ⟨u ++ taken, by rw [rest, List.append_assoc, hsplit], fun hs _ => ?_⟩
    rw [List.getLast?_append, hends (state ▸ hs)]
    rfl
  | inside token =>
    obtain ⟨taken, htaken, hends⟩ := (takes_token token).split_rest rfl
    exact ⟨taken, htaken, fun hs _ => hends hs⟩

end Step

/-! ## Covering a text -/

section Cover

variable {lost fresh : Bool} {text front : List Char} {st : State} {c : Char} {cs : List Char}
  {ts : List Token}

/-- Whether what a step leaves is covered. -/
def CoversBehind (lost : Bool) (x : Step (c :: cs)) (ts : List Token) : Prop :=
  ∀ fresh, (x.state.lineStart = true → x.rest ≠ [] → fresh = true) →
    Covers lost fresh x.state.depth x.rest ts

/-- What a step takes behind an indentation is covered. -/
theorem covers_token (hst : st.lineStart = false) {x : Step (c :: cs)}
    (hx : token st c cs = .ok x) (h : CoversBehind lost x ts) :
    Covers lost fresh st.depth (c :: cs) (x.tokens ++ ts) := by
  have hinLine {b : Prop} (he : x.state.lineStart = st.lineStart)
      (hs : x.state.lineStart = true) : b := absurd ((he.trans hst).symm.trans hs) nofun
  cases takes_token hx with
  | @token t u tokens kind htoken split depth lineStart =>
    rw [tokens, split, ← List.cons_append, ← htoken]
    exact .token kind htoken depth (h false (hinLine lineStart))
  | newline char tokens rest depth =>
    have hrest := h true fun _ _ => rfl
    rw [rest, depth] at hrest
    subst char
    refine Covers.append_layout (fun t ht => ?_) (.newline hrest)
    obtain ⟨hk, hempty⟩ := tokens t ht
    exact ⟨by rw [hk]; rfl, hempty⟩
  | skip tokens skips depth lineStart =>
    have hrest := h false (hinLine lineStart)
    rw [depth] at hrest
    rw [tokens, List.nil_append]
    exact .skip skips hrest

/-- What a step takes off the front of a text is covered, if what it leaves is. -/
theorem covers_step (hlost : ∀ line ∈ Text.splitOn '\n' text, losesLine line = true → lost = true)
    (htext : text = front ++ c :: cs)
    (hfresh : st.lineStart = true → fresh = true ∧ EndsWithLine front) {x : Step (c :: cs)}
    (hx : step st c cs = .ok x) (h : CoversBehind lost x ts) :
    Covers lost fresh st.depth (c :: cs) (x.tokens ++ ts) := by
  cases advances_step hx with
  | @blankLine u line tail start split blanks indent whole ends blank tokens rest depth =>
    obtain ⟨rfl, hfront⟩ := hfresh start.1
    have hloses (v : List Char) (he : line = '\r' :: v) (hidle : isIdle v = false) :
        lost = true := by
      refine hlost (u ++ line) ?_ (by rw [losesLine, indent, he]; simp [hidle])
      rw [htext, split, ← List.append_assoc u]
      refine mem_splitOn hfront (fun hm => ?_) ends
      rcases List.mem_append.1 hm with hm | hm
      · exact absurd (blanks _ hm) (by decide)
      · exact whole hm
    rw [start.2, tokens, List.nil_append, split]
    refine covers_blankLine blanks blank whole ends hloses fun fresh => ?_
    cases tail with
    | nil =>
      have hrest := h fresh fun _ hne => absurd rest hne
      rwa [depth, rest] at hrest
    | cons d r =>
      obtain rfl : d = '\n' := ends d rfl
      have hrest := h true fun _ _ => rfl
      rw [depth, rest] at hrest
      exact .newline hrest
  | @textLine u c' cs' st' y layoutTokens indents start split blanks indent full token inLine depth
      layout tokens rest state =>
    obtain ⟨rfl, -⟩ := hfresh start.1
    have hbehind : CoversBehind lost y ts := fun fresh => by
      rw [← rest, ← state]
      exact h fresh
    have htoken : Covers lost true st'.depth (c' :: cs') (y.tokens ++ ts) :=
      covers_token inLine token hbehind
    rw [start.2, tokens, List.append_assoc, split, ← depth]
    exact .indentation blanks (htoken.append_layout (layout_of_mem_layout layout))
  | inside token =>
    have hst : ({ st with lineStart := false } : State).lineStart = false := rfl
    exact covers_token hst token h

end Cover

/-- The tokens of a text cover it. -/
theorem covers_scan {lost fresh : Bool} {text : List Char}
    (hlost : ∀ line ∈ Text.splitOn '\n' text, losesLine line = true → lost = true)
    {front s : List Char} (htext : text = front ++ s) {st : State}
    (hfresh : st.lineStart = true → s ≠ [] → fresh = true ∧ EndsWithLine front) {ts : List Token}
    (h : scan st s = .ok ts) : Covers lost fresh st.depth s ts := by
  cases s with
  | nil =>
    rw [scan] at h
    rw [← List.append_nil ts]
    exact .append_layout (layout_of_mem_finish h) .done
  | cons c cs =>
    rw [scan_step] at h
    obtain ⟨x, hx, h⟩ := Parser.ok_of_bind h
    obtain ⟨rest, hrest, rfl⟩ := ok_of_map h
    obtain ⟨taken, hsplit, hends⟩ := (advances_step hx).split_rest
    have htext' : text = front ++ taken ++ x.rest :=
      htext.trans ((congrArg (front ++ ·) hsplit).trans (List.append_assoc _ _ _).symm)
    have := x.shorter
    refine covers_step hlost htext (fun hs => hfresh hs (List.cons_ne_nil _ _)) hx ?_
    intro fresh hf
    exact covers_scan hlost htext' (fun hs hne => ⟨hf hs hne, .append (hends hs hne)⟩) hrest
termination_by s.length

end Lexer

open Lexer

/-- The tokens of a text other than those of layout are pieces of it, in order, with nothing between
them but blanks, comments and joining backslashes, unless the text has a line to lose. -/
theorem tokenize_covers {s : List Char} {ts : List Token} (h : tokenize s = .ok ts) :
    Covers ((Text.splitOn '\n' s).any losesLine) true 0 s ts := by
  have hlost (line : List Char) (hm : line ∈ Text.splitOn '\n' s) (hl : losesLine line = true) :
      (Text.splitOn '\n' s).any losesLine = true := List.any_eq_true.2 ⟨line, hm, hl⟩
  have hfront : EndsWithLine [] := fun _ hc => absurd hc nofun
  exact covers_scan hlost (List.nil_append s).symm (fun _ _ => ⟨rfl, hfront⟩) h

/-- A statement on two lines that a backslash joins, with a comment. -/
theorem tokenize_covers_joined :
    let s := "x = a \\\n  + 'b'  # c\n".toList
    ∃ ts, tokenize s = .ok ts ∧ ts.map Token.text = ["x", "=", "a", "+", "'b'", "", ""] ∧
      Covers false true 0 s ts := by
  intro s
  have hs : tokenize s = .ok [⟨.name, "x", ⟨1, 1⟩⟩, ⟨.op, "=", ⟨1, 3⟩⟩, ⟨.name, "a", ⟨1, 5⟩⟩,
      ⟨.op, "+", ⟨2, 3⟩⟩, ⟨.str, "'b'", ⟨2, 5⟩⟩, ⟨.newline, "", ⟨2, 13⟩⟩,
      ⟨.endMarker, "", ⟨3, 1⟩⟩] := by
    decide +kernel
  exact ⟨_, hs, rfl, tokenize_covers hs⟩

/-- A line that starts with a carriage return is lost, though it is neither blank nor a comment. -/
theorem tokenize_loses_line :
    let s := "\rrequire(x)".toList
    ∃ ts, tokenize s = .ok ts ∧ ¬Covers false true 0 s ts := by
  intro s
  have hs : tokenize s = .ok [⟨.endMarker, "", ⟨1, 12⟩⟩] := by decide +kernel
  refine ⟨_, hs, fun h => ?_⟩
  exact absurd (h.blanks (by decide) (by decide) 'x' (by decide)) (by decide)

end ValidUsage
