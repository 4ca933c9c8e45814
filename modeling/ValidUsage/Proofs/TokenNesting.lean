import ValidUsage.Proofs.ScanSound

/-!
# The nesting of tokens

Between two tokens some brackets and some blocks are open, and the line has tokens or none. Every
step of the lexer goes by these rules: lines end and blocks open and close outside of brackets only,
a line ends only behind a token of its own, and nothing is closed that is not open. So the tokens of
a whole text are well nested.
-/

namespace ValidUsage

namespace Token

/-- Whether a token opens a bracket. -/
def opensBracket (t : Token) : Bool := t.kind == .op && ["(", "[", "\x7b"].contains t.text

/-- Whether a token closes a bracket. -/
def closesBracket (t : Token) : Bool := t.kind == .op && [")", "]", "\x7d"].contains t.text

/-- Whether a token says how lines and blocks go on. -/
def dividesLines (t : Token) : Bool :=
  t.kind == .newline || t.kind == .indent || t.kind == .dedent

end Token

/-- Whether among tokens the ones that close something are never ahead of those that open it, and
all are closed in the end. -/
structure Balanced (opens closes : Token → Bool) (ts : List Token) : Prop where
  ahead : ∀ u, u <+: ts → u.countP closes ≤ u.countP opens
  settled : ts.countP opens = ts.countP closes

/-- Whether the tokens of a text are well nested. -/
structure WellNested (ts : List Token) : Prop where
  /-- The last token ends the text, and no other one does. -/
  ends : ∃ u t, ts = u ++ [t] ∧ t.kind = .endMarker ∧ ∀ t ∈ u, t.kind ≠ .endMarker
  /-- Every block that is opened is closed. -/
  blocks : Balanced (·.kind == .indent) (·.kind == .dedent) ts
  /-- Every bracket that is opened is closed. -/
  brackets : Balanced Token.opensBracket Token.closesBracket ts
  /-- Lines end, and blocks open and close, where no bracket is open. -/
  outside : ∀ u t r, ts = u ++ t :: r → t.dividesLines = true →
    u.countP Token.opensBracket = u.countP Token.closesBracket
  /-- A line ends behind a token of its own. -/
  lines : ∀ u t r, ts = u ++ t :: r → t.kind = .newline →
    ∃ t' ∈ u.getLast?, t'.dividesLines = false

/-- What is open between two tokens. -/
structure Nesting where
  /-- The number of open brackets. -/
  brackets : Nat
  /-- The number of open blocks. -/
  blocks : Nat
  /-- Whether the token in front belongs to a line that goes on. -/
  content : Bool

namespace Nesting

/-- How a token changes what is open. -/
inductive Step : Nesting → Token → Nesting → Prop
  | newline {n : Nat} {t : Token} (ht : t.kind = .newline) : Step ⟨0, n, true⟩ t ⟨0, n, false⟩
  | indent {n : Nat} {content : Bool} {t : Token} (ht : t.kind = .indent) :
      Step ⟨0, n, content⟩ t ⟨0, n + 1, false⟩
  | dedent {n : Nat} {content : Bool} {t : Token} (ht : t.kind = .dedent) :
      Step ⟨0, n + 1, content⟩ t ⟨0, n, false⟩
  | content {d d' n : Nat} {content : Bool} {t : Token} (ht : t.kind.isLayout = false)
      (hd : d + [t].countP Token.opensBracket = d' + [t].countP Token.closesBracket) :
      Step ⟨d, n, content⟩ t ⟨d', n, true⟩

/-- How tokens, one after the other, change what is open. -/
inductive Run : Nesting → List Token → Nesting → Prop
  | nil {a : Nesting} : Run a [] a
  | cons {a b c : Nesting} {t : Token} {ts : List Token} (h : Step a t b) (hs : Run b ts c) :
      Run a (t :: ts) c

section Run

variable {a b c : Nesting} {t : Token} {u ts : List Token}

/-- A run goes on with another one. -/
theorem Run.append (h : Run a u b) (hs : Run b ts c) : Run a (u ++ ts) c := by
  induction h with
  | nil => exact hs
  | cons h _ ih => exact .cons h (ih hs)

/-- A run passes through a state wherever it is split. -/
theorem Run.split (h : Run a (u ++ ts) c) : ∃ b, Run a u b ∧ Run b ts c := by
  induction u generalizing a with
  | nil => exact ⟨a, .nil, h⟩
  | cons t u ih =>
    cases h with
    | cons h hs =>
      obtain ⟨b, hu, hts⟩ := ih hs
      exact ⟨b, .cons h hu, hts⟩

/-- Only operators open or close brackets. -/
theorem not_bracket_of_kind (h : t.kind ≠ .op) :
    t.opensBracket = false ∧ t.closesBracket = false := by
  simp [Token.opensBracket, Token.closesBracket, h]

private theorem Step.brackets (h : Step a t b) : a.brackets + [t].countP Token.opensBracket =
    b.brackets + [t].countP Token.closesBracket := by
  cases h with
  | newline ht | indent ht | dedent ht =>
    obtain ⟨ho, hc⟩ := not_bracket_of_kind (t := t) (by simp [ht])
    simp [ho, hc]
  | content ht hd => exact hd

/-- A step opens a block with an indentation and closes one with its end. -/
theorem Step.blocks (h : Step a t b) : a.blocks + [t].countP (·.kind == .indent) =
    b.blocks + [t].countP (·.kind == .dedent) := by
  cases h with
  | newline ht | indent ht | dedent ht => simp [ht]
  | content ht hd =>
    have hi : t.kind ≠ .indent := fun he => by simp [he, TokenKind.isLayout] at ht
    have hd : t.kind ≠ .dedent := fun he => by simp [he, TokenKind.isLayout] at ht
    simp [hi, hd]

/-- Outside of brackets only, lines end, and blocks open and close. -/
theorem Step.brackets_eq_zero (h : Step a t b) (ht : t.dividesLines = true) : a.brackets = 0 := by
  cases h with
  | newline | indent | dedent => rfl
  | content hk => cases hkind : t.kind <;> simp_all [Token.dividesLines, TokenKind.isLayout]

/-- Only a line that has tokens ends. -/
theorem Step.content_of_newline (h : Step a t b) (ht : t.kind = .newline) : a.content = true := by
  cases h with
  | newline => rfl
  | indent hk | dedent hk => exact TokenKind.noConfusion (ht.symm.trans hk)
  | content hk => simp [ht, TokenKind.isLayout] at hk

/-- The open brackets are those that were open and those that were opened, but for those that were
closed. -/
theorem Run.brackets (h : Run a ts b) : a.brackets + ts.countP Token.opensBracket =
    b.brackets + ts.countP Token.closesBracket := by
  induction h with
  | nil => rfl
  | @cons a b c t ts h _ ih =>
    have := h.brackets
    rw [← List.singleton_append, List.countP_append, List.countP_append]
    omega

/-- The same of the open blocks. -/
theorem Run.blocks (h : Run a ts b) : a.blocks + ts.countP (·.kind == .indent) =
    b.blocks + ts.countP (·.kind == .dedent) := by
  induction h with
  | nil => rfl
  | @cons a b c t ts h _ ih =>
    have := h.blocks
    rw [← List.singleton_append, List.countP_append, List.countP_append]
    omega

/-- Whether a line has tokens is told by the last token. -/
theorem Run.content (h : Run a ts b) :
    b.content = (ts.getLast?.map fun t => !t.dividesLines).getD a.content := by
  induction h with
  | nil => rfl
  | @cons a b c t ts h hs ih =>
    have hb : b.content = !t.dividesLines := by
      cases h with
      | newline ht | indent ht | dedent ht => simp [Token.dividesLines, ht]
      | content ht hd =>
        cases hk : t.kind <;> simp_all [Token.dividesLines, TokenKind.isLayout]
    rw [ih, List.getLast?_cons, hb]
    cases ts.getLast? <;> rfl

private theorem Run.ne_endMarker (h : Run a ts b) : ∀ t ∈ ts, t.kind ≠ .endMarker := by
  induction h with
  | nil => simp
  | cons h _ ih =>
    refine List.forall_mem_cons.2 ⟨fun he => ?_, ih⟩
    cases h with
    | newline ht | indent ht | dedent ht => exact TokenKind.noConfusion (he.symm.trans ht)
    | content ht hd => simp [he, TokenKind.isLayout] at ht

/-- What is counted along a run is balanced, if nothing of it is open at both ends. -/
theorem Run.balanced {opens closes : Token → Bool} (count : Nesting → Nat)
    (hcount : ∀ {a b ts}, Run a ts b → count a + ts.countP opens = count b + ts.countP closes)
    (h : Run a ts b) (ha : count a = 0) (hb : count b = 0) : Balanced opens closes ts := by
  constructor
  · rintro u ⟨r, rfl⟩
    obtain ⟨d, hu, -⟩ := h.split
    have := hcount hu
    omega
  · have := hcount h
    omega

private theorem Run.step_at {r : List Token} (h : Run a (u ++ t :: r) c) :
    ∃ b b', Run a u b ∧ Step b t b' := by
  obtain ⟨b, hu, hr⟩ := h.split
  cases hr with
  | cons hs => exact ⟨b, _, hu, hs⟩

end Run

end Nesting

open Nesting

/-- A last token that neither opens nor closes anything does not matter. -/
theorem Balanced.concat {opens closes : Token → Bool} {ts : List Token} {t : Token}
    (h : Balanced opens closes ts) (ho : opens t = false) (hc : closes t = false) :
    Balanced opens closes (ts ++ [t]) := by
  have hts : (ts ++ [t]).countP opens = (ts ++ [t]).countP closes := by
    simp [ho, hc, h.settled]
  refine ⟨fun u hu => ?_, hts⟩
  rcases List.prefix_concat_iff.1 hu with rfl | hu
  · rw [hts]
  · exact h.ahead u hu

/-- The tokens of a text at whose beginning and end nothing is open are well nested. -/
theorem WellNested.of_run {ts : List Token} {t : Token}
    (h : Run ⟨0, 0, false⟩ ts ⟨0, 0, false⟩) (ht : t.kind = .endMarker) :
    WellNested (ts ++ [t]) := by
  obtain ⟨ho, hc⟩ := not_bracket_of_kind (t := t) (by simp [ht])
  -- Every other token is one of a step.
  have step {u r : List Token} {t' : Token} (he : ts ++ [t] = u ++ t' :: r)
      (hk : t'.kind ≠ .endMarker) : ∃ b b', Run ⟨0, 0, false⟩ u b ∧ Step b t' b' := by
    rcases List.eq_nil_or_concat r with rfl | ⟨r', t'', rfl⟩
    · obtain rfl : t = t' := by simpa using List.append_inj_right' he rfl
      exact absurd ht hk
    · rw [List.concat_eq_append, ← List.cons_append, ← List.append_assoc] at he
      obtain rfl := (List.append_inj' he rfl).1
      exact h.step_at
  refine ⟨⟨ts, t, rfl, ht, h.ne_endMarker⟩, ?_, ?_, fun u t' r he hd => ?_, fun u t' r he hk => ?_⟩
  · exact (h.balanced Nesting.blocks Run.blocks rfl rfl).concat (by simp [ht]) (by simp [ht])
  · exact (h.balanced Nesting.brackets Run.brackets rfl rfl).concat ho hc
  · obtain ⟨b, b', hu, hs⟩ := step he fun hk => by simp [Token.dividesLines, hk] at hd
    have hcount := hu.brackets
    have hzero := hs.brackets_eq_zero hd
    simp only [hzero] at hcount
    omega
  · obtain ⟨b, b', hu, hs⟩ := step he fun he => by simp [hk] at he
    have hcontent := hu.content
    rw [hs.content_of_newline hk] at hcontent
    cases hlast : u.getLast? with
    | none => simp [hlast] at hcontent
    | some t'' =>
      rw [hlast] at hcontent
      exact ⟨t'', rfl, by simpa using hcontent.symm⟩

namespace Lexer

/-- What is open in a state of the lexer. -/
def State.nesting (st : State) : Nesting := ⟨st.depth, st.indents.length, st.content⟩

section Step

variable {st : State} {c : Char} {cs : List Char} {x : Lexer.Step (c :: cs)}

/-- A token changes the number of open brackets as its first character does. -/
theorem countP_bracket {t : Token} {u : List Char} {d d' : Nat} (htext : t.text.toList = c :: u)
    (hd : depthAfter? c d = some d') (hc : isBracket c = true → t.kind = .op ∧ u = []) :
    d + [t].countP Token.opensBracket = d' + [t].countP Token.closesBracket := by
  cases hb : isBracket c with
  | false =>
    obtain rfl : d = d' := Option.some.inj ((depthAfter?_of_not_isBracket hb d).symm.trans hd)
    have hne (s : String) (hs : s.toList.head?.any isBracket = true) : t.text ≠ s := by
      rintro rfl
      rw [htext] at hs
      exact Bool.false_ne_true (hb.symm.trans hs)
    simp [Token.opensBracket, Token.closesBracket, hne "(" rfl, hne "[" rfl, hne "\x7b" rfl,
      hne ")" rfl, hne "]" rfl, hne "\x7d" rfl]
  | true =>
    obtain ⟨hk, rfl⟩ := hc hb
    have htext : t.text = String.ofList [c] := String.toList_injective (by simpa using htext)
    have hc : c ∈ ['(', '[', '{', ')', ']', '}'] := by
      simpa only [isBracket, List.contains_eq_mem, decide_eq_true_eq] using hb
    simp only [List.mem_cons, List.not_mem_nil, or_false] at hc
    rcases hc with rfl | rfl | rfl | rfl | rfl | rfl <;>
      simp [Token.opensBracket, Token.closesBracket, hk, htext, depthAfter?] at hd ⊢ <;> omega

private theorem run_move (hm : Move st x) : Run st.nesting x.tokens x.state.nesting := by
  cases hm with
  | @token t u depth tokens kind text start split after alone state =>
    rw [tokens, state]
    exact .cons (.content kind (countP_bracket text after alone)) .nil
  | @newline ends char ended tokens rest state =>
    rw [tokens, state]
    cases ends with
    | true =>
      obtain ⟨hdepth, hcontent⟩ := ended.1 rfl
      simp only [State.nesting, hdepth, hcontent]
      exact .cons (.newline rfl) .nil
    | false =>
      simp only [State.nesting, Bool.not_false, Bool.and_true]
      exact .nil
  | blank char tokens rest state =>
    rw [tokens, state]
    exact .nil
  | comment char split inLine ends tokens state =>
    rw [tokens, state]
    exact .nil
  | join char split carriage tokens state =>
    rw [tokens, state]
    exact .nil

/-- Closing levels outside of brackets. -/
theorem run_dedents {closed : List Nat} {n : Nat} {content : Bool} {p : Pos} :
    Run ⟨0, closed.length + n, content⟩ (closed.map fun _ => ⟨.dedent, "", p⟩)
      ⟨0, n, closed.isEmpty && content⟩ := by
  induction closed generalizing content with
  | nil => simpa using .nil
  | cons m closed ih =>
    rw [List.length_cons, Nat.add_right_comm]
    refine .cons (.dedent rfl) ?_
    simpa using @ih false

private theorem run_layout {indents indents' : List Nat} {width : Nat} {content : Bool} {p : Pos}
    {tokens : List Token} (h : layout indents width p = .ok (tokens, indents')) :
    Run ⟨0, indents.length, content⟩ tokens
      ⟨0, indents'.length, tokens.isEmpty && content⟩ := by
  rcases layout_opens_or_closes h with ⟨-, rfl, rfl⟩ | ⟨closed, rfl, rfl⟩
  · exact .cons (.indent rfl) .nil
  · rw [List.length_append, List.isEmpty_map]
    exact run_dedents

private theorem run_step (h : step st c cs = .ok x) : Run st.nesting x.tokens x.state.nesting := by
  cases turn_step h with
  | blankLine start split blanks indent whole ends blank tokens rest state =>
    rw [tokens, state]
    exact .nil
  | textLine start split blanks indent full layout token tokens rest state =>
    rw [tokens, state, State.nesting, start.2]
    have htoken := run_move (move_token token)
    rw [State.nesting, start.2] at htoken
    exact (run_layout layout).append htoken
  | inside start token =>
    have hrun := run_move (move_token token)
    exact hrun

end Step

/-- The end of a text closes what is still open. -/
theorem run_finish {st : State} {ts : List Token} (h : finish st = .ok ts) :
    ∃ u t, ts = u ++ [t] ∧ t.kind = .endMarker ∧ Run st.nesting u ⟨0, 0, false⟩ := by
  obtain ⟨hdepth, rfl⟩ := eq_of_finish h
  refine ⟨_, _, (List.append_assoc _ _ _).symm, rfl, ?_⟩
  have hline : Run st.nesting (if st.content then [⟨.newline, "", st.pos⟩] else [])
      ⟨0, st.indents.length, false⟩ := by
    rw [State.nesting, hdepth]
    cases st.content with
    | true => exact .cons (.newline rfl) .nil
    | false => exact .nil
  have hdedents : Run ⟨0, st.indents.length + 0, false⟩
      (st.indents.map fun _ => ⟨.dedent, "", st.pos⟩) ⟨0, 0, st.indents.isEmpty && false⟩ :=
    run_dedents
  rw [Bool.and_false] at hdedents
  exact hline.append hdedents

/-- The tokens of the rest of a text close what is open in front of it. -/
theorem run_scan {st : State} {s : List Char} {ts : List Token} (h : scan st s = .ok ts) :
    ∃ u t, ts = u ++ [t] ∧ t.kind = .endMarker ∧ Run st.nesting u ⟨0, 0, false⟩ := by
  cases s with
  | nil =>
    rw [scan] at h
    exact run_finish h
  | cons c cs =>
    rw [scan_step] at h
    obtain ⟨x, hx, h⟩ := Parser.ok_of_bind h
    obtain ⟨rest, hrest, rfl⟩ := ok_of_map h
    have := x.shorter
    obtain ⟨u, t, rfl, ht, hrun⟩ := run_scan hrest
    exact ⟨x.tokens ++ u, t, (List.append_assoc _ _ _).symm, ht, (run_step hx).append hrun⟩
termination_by s.length

end Lexer

/-- The tokens of a text are well nested. -/
theorem tokenize_wellNested {s : List Char} {ts : List Token} (h : tokenize s = .ok ts) :
    WellNested ts := by
  obtain ⟨u, t, rfl, ht, hrun⟩ := Lexer.run_scan h
  exact .of_run hrun ht

/-- Two blocks that end with the text, the inner one with a requirement on two lines. -/
theorem tokenize_wellNested_blocks :
    ∃ ts, tokenize "if a:\n  for x in b:\n    require(x[\n0] == c)".toList = .ok ts ∧
      ts.map Token.kind = [.name, .name, .op, .newline, .indent, .name, .name, .name, .name, .op,
        .newline, .indent, .name, .op, .name, .op, .number, .op, .op, .name, .op, .newline,
        .dedent, .dedent, .endMarker] ∧ WellNested ts := by
  have hok : (tokenize "if a:\n  for x in b:\n    require(x[\n0] == c)".toList).toOption.map
      (·.map Token.kind) =
      some [.name, .name, .op, .newline, .indent, .name, .name, .name, .name, .op, .newline,
        .indent, .name, .op, .name, .op, .number, .op, .op, .name, .op, .newline, .dedent, .dedent,
        .endMarker] := by
    decide +kernel
  cases hs : tokenize "if a:\n  for x in b:\n    require(x[\n0] == c)".toList with
  | error e =>
    rw [hs] at hok
    exact absurd hok nofun
  | ok ts =>
    rw [hs] at hok
    exact ⟨ts, rfl, Option.some.inj hok, tokenize_wellNested hs⟩

end ValidUsage
