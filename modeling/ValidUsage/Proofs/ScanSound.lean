import ValidUsage.Proofs.CommentCalls
import ValidUsage.Proofs.ReadBlocks
import ValidUsage.Proofs.ScanSteps

/-!
# Tokens of texts

The names among the tokens of a text are words. Where a text calls comments only by their lines, so
do its tokens.
-/

namespace ValidUsage
namespace Lexer

open ValidUsage.Parser (AreSound OpensComment)
open Paragraph (CallsComments commentArguments)

/-- Whether a step at a character leaves a part of what follows it, and takes no name. -/
structure IsNameless {c : Char} {cs : List Char} (x : Step (c :: cs)) : Prop where
  suffix : x.rest <:+ cs
  kinds : ∀ t ∈ x.tokens, t.kind ≠ .name

section Token

variable {st : State} {c : Char} {cs : List Char}

/-- A step at a character that starts no name takes none. -/
theorem isNameless_token {x : Step (c :: cs)} (h : token st c cs = .ok x)
    (hc : Text.isNameStart c = false) : IsNameless x where
  suffix := by
    cases move_token h with
    | token tokens kind text start split => exact ⟨_, split.symm⟩
    | newline char ended tokens rest => exact ⟨[], rest⟩
    | blank char tokens rest => exact ⟨[], rest⟩
    | comment char split => exact ⟨_, split.symm⟩
    | @join u char split =>
      have hline : '\n' :: x.rest <:+ cs := ⟨u, split.symm⟩
      exact (List.suffix_cons '\n' x.rest).trans hline
  kinds := by
    intro t ht hk
    obtain ⟨n, hlexeme, -⟩ := lexeme_of_mem h ht (by rw [hk]; rfl)
    rw [hk] at hlexeme
    cases hlexeme with
    | name start => exact absurd (start.symm.trans hc) nofun

end Token

/-- An indentation opens one level, or closes those that are deeper. -/
theorem layout_opens_or_closes {indents indents' : List Nat} {width : Nat} {p : Pos}
    {tokens : List Token} (h : layout indents width p = .ok (tokens, indents')) :
    (0 < width ∧ tokens = [⟨.indent, "", p⟩] ∧ indents' = width :: indents) ∨
      ∃ closed, indents = closed ++ indents' ∧ tokens = closed.map fun _ => ⟨.dedent, "", p⟩ := by
  unfold layout at h
  dsimp only at h
  split at h
  · rename_i hlt
    cases h
    exact .inl ⟨Nat.zero_lt_of_lt hlt, rfl, rfl⟩
  · split at h
    · cases h
      exact .inr ⟨_, List.takeWhile_append_dropWhile.symm, rfl⟩
    · exact absurd h nofun

/-- The tokens of an indentation are layout. -/
theorem layout_of_mem_layout {indents indents' : List Nat} {width : Nat} {p : Pos}
    {tokens : List Token} (h : layout indents width p = .ok (tokens, indents')) :
    ∀ t ∈ tokens, t.kind.isLayout = true ∧ t.text = "" := by
  rcases layout_opens_or_closes h with ⟨-, rfl, -⟩ | ⟨closed, -, rfl⟩
  · exact fun t ht => List.mem_singleton.1 ht ▸ ⟨rfl, rfl⟩
  · exact List.forall_mem_map.2 fun _ _ => ⟨rfl, rfl⟩

/-- A text ends outside of brackets, with the end of its last line and of every open level. -/
theorem eq_of_finish {st : State} {ts : List Token} (h : finish st = .ok ts) :
    st.depth = 0 ∧ ts = (if st.content then [⟨.newline, "", st.pos⟩] else []) ++
      (st.indents.map (fun _ => ⟨.dedent, "", st.pos⟩) ++ [⟨.endMarker, "", st.pos⟩]) := by
  unfold finish at h
  split at h
  · exact absurd h nofun
  · cases h
    exact ⟨by omega, List.append_assoc _ _ _⟩

/-- The tokens that end a text are layout, and none of them opens a block. -/
theorem ends_of_mem_finish {st : State} {ts : List Token} (h : finish st = .ok ts) :
    ∀ t ∈ ts, t.kind.isLayout = true ∧ t.text = "" ∧ t.kind ≠ .indent := by
  obtain ⟨-, rfl⟩ := eq_of_finish h
  intro t ht
  simp only [List.mem_append, List.mem_singleton, List.mem_map] at ht
  rcases ht with ht | ⟨n, -, rfl⟩ | rfl
  · split at ht
    · rw [List.mem_singleton.1 ht]
      exact ⟨rfl, rfl, nofun⟩
    · exact absurd ht List.not_mem_nil
  · exact ⟨rfl, rfl, nofun⟩
  · exact ⟨rfl, rfl, nofun⟩

/-- The last tokens are layout, and have no text. -/
theorem layout_of_mem_finish {st : State} {ts : List Token} (h : finish st = .ok ts) :
    ∀ t ∈ ts, t.kind.isLayout = true ∧ t.text = "" := fun t ht =>
  have ⟨hlayout, htext, _⟩ := ends_of_mem_finish h t ht
  ⟨hlayout, htext⟩

private theorem ne_name_of_isLayout {t : Token} (h : t.kind.isLayout = true) : t.kind ≠ .name := by
  intro he
  rw [he] at h
  exact absurd h nofun

/-- The layout tokens of a line are no names. -/
theorem kind_of_mem_layout {indents indents' : List Nat} {width : Nat} {p : Pos}
    {tokens : List Token} (h : layout indents width p = .ok (tokens, indents')) :
    ∀ t ∈ tokens, t.kind ≠ .name := fun t ht => ne_name_of_isLayout (layout_of_mem_layout h t ht).1

/-- Nor are the last tokens. -/
theorem kind_of_mem_finish {st : State} {ts : List Token} (h : finish st = .ok ts) :
    ∀ t ∈ ts, t.kind ≠ .name := fun t ht => ne_name_of_isLayout (layout_of_mem_finish h t ht).1

/-- A step leaves a part of the text and takes no name, or it is one at a character of the text,
after tokens of layout. -/
theorem step_cases {st : State} {c : Char} {cs : List Char} {x : Step (c :: cs)}
    (h : step st c cs = .ok x) :
    (x.rest <:+ c :: cs ∧ ∀ t ∈ x.tokens, t.kind ≠ .name) ∨
      ∃ (st' : State) (c' : Char) (cs' : List Char) (y : Step (c' :: cs')) (ts : List Token),
        c' :: cs' <:+ c :: cs ∧ st'.lineStart = false ∧ token st' c' cs' = .ok y ∧
        (∀ t ∈ ts, t.kind ≠ .name) ∧ x.tokens = ts ++ y.tokens ∧ x.rest = y.rest ∧
        x.state = y.state := by
  cases turn_step h with
  | @blankLine u line tail start split blanks indent whole ends blank tokens rest =>
    refine .inl ⟨?_, by rw [tokens]; nofun⟩
    rw [rest, split, ← List.append_assoc]
    exact (List.tail_suffix tail).trans (List.suffix_append _ _)
  | textLine start split blanks indent full layout token tokens rest state =>
    exact .inr ⟨_, _, _, _, _, ⟨_, split.symm⟩, rfl, token, kind_of_mem_layout layout, tokens, rest,
      state⟩
  | inside start token =>
    exact .inr ⟨_, c, cs, x, [], List.suffix_refl _, rfl, token, (by rintro _ ⟨⟩), rfl, rfl, rfl⟩

/-! ## Names -/

variable {kept : Bool}

private theorem areSound_append {ts r : List Token} (h : ∀ t ∈ ts, t.kind ≠ .name)
    (hr : AreSound kept r) : AreSound kept (ts ++ r) := by
  induction ts with
  | nil => exact hr
  | cons t ts ih =>
    obtain ⟨ht, hts⟩ := List.forall_mem_cons.1 h
    have ih := ih hts
    constructor
    · intro t' ht' hk
      rcases List.mem_cons.1 ht' with rfl | ht'
      · exact absurd hk ht
      · exact ih.words t' ht' hk
    · intro hkept pre t' r' he hk hname
      cases pre with
      | nil =>
        obtain ⟨rfl, -⟩ := List.cons.inj he
        exact absurd hk ht
      | cons t'' pre =>
        obtain ⟨-, he⟩ := List.cons.inj he
        exact ih.comments hkept pre t' r' he hk hname

private theorem areSound_cons {t : Token} {r : List Token} (hw : IsWord t.text)
    (hr : AreSound kept r)
    (ho : kept = true → t.text = commentName → OpensComment r) : AreSound kept (t :: r) := by
  constructor
  · intro t' ht' hk
    rcases List.mem_cons.1 ht' with rfl | ht'
    · exact hw
    · exact hr.words t' ht' hk
  · intro hkept pre t' r' he hk hname
    cases pre with
    | nil =>
      obtain ⟨rfl, rfl⟩ := List.cons.inj he
      exact ho hkept hname
    | cons t'' pre =>
      obtain ⟨-, he⟩ := List.cons.inj he
      exact hr.comments hkept pre t' r' he hk hname

/-- The arguments of a kept comment open a comment. -/
theorem opensComment_of_scan {st : State} (hst : st.lineStart = false) {text : String}
    (ht : isCommentText text = true) {r : List Char} {ts : List Token}
    (h : scan st (commentArguments text.toList ++ r) = .ok ts) : OpensComment ts := by
  have hn : '\n' ∉ text.toList := by simpa using (Bool.and_eq_true_iff.1 ht).2
  obtain ⟨toks, st', htoks, -, -, -, -, he⟩ :=
    Stmt.scans_commentArguments hn st.depth r st rfl (.inl hst)
  rw [commentArguments, he] at h
  cases hr : scan st' r with
  | error e => rw [hr] at h; cases h
  | ok rest =>
    rw [hr] at h
    cases h
    obtain ⟨t₁, toks, rfl, h₁, htoks⟩ := List.map_eq_cons_iff.1 htoks
    obtain ⟨t₂, toks, rfl, h₂, htoks⟩ := List.map_eq_cons_iff.1 htoks
    obtain ⟨t₃, toks, rfl, h₃, htoks⟩ := List.map_eq_cons_iff.1 htoks
    obtain rfl := List.map_eq_nil_iff.1 htoks
    simp only [Token.bare, Prod.mk.injEq] at h₁ h₂ h₃
    refine ⟨t₁, t₂, t₃, rest, rfl, Parser.is_of_op h₁.1 h₁.2, h₂.1, ?_, Parser.is_of_op h₃.1 h₃.2⟩
    rw [h₂.2, String.toList_ofList, Literal.unquote, List.drop_one, List.tail_cons,
      List.dropLast_concat, Literal.unescape_quoteComment, String.ofList_toList]
    exact ht

/-- The tokens after a name are those of a comment if the name is that of comments. -/
theorem areSound_name {st : State} {c : Char} {cs : List Char} {x : Step (c :: cs)}
    (hst : st.lineStart = false) (hx : token st c cs = .ok x) (hc : Text.isNameStart c = true)
    (hs : kept = true → CallsComments (c :: cs)) {rest : List Token}
    (hrest : scan x.state x.rest = .ok rest) (ih : AreSound kept rest) :
    AreSound kept (x.tokens ++ rest) := by
  rw [token_of_isNameStart hc] at hx
  cases hx
  have hword : cs.take (cs.takeWhile Text.isNameChar).length = cs.takeWhile Text.isNameChar :=
    (List.prefix_iff_eq_take.1 (List.takeWhile_prefix _)).symm
  refine areSound_cons (.of_toList c (cs.takeWhile Text.isNameChar) ?_ ?_) ih fun hk hname => ?_
  · rw [String.toList_ofList, hword]
  · rw [hc, List.all_takeWhile]
    rfl
  · have htext : c :: cs.takeWhile Text.isNameChar = commentName.toList := by
      rw [← hname, String.toList_ofList, hword]
    have hsplit : c :: cs = [] ++ commentName.toList ++
        cs.drop (cs.takeWhile Text.isNameChar).length := by
      have hcs := List.take_append_drop (cs.takeWhile Text.isNameChar).length cs
      rw [hword] at hcs
      rw [← htext, List.nil_append, List.cons_append, hcs]
    obtain ⟨text, r, htext, hr⟩ := hs hk [] _ hsplit
    have hafter : (take st .name c cs (cs.takeWhile Text.isNameChar).length).state.lineStart =
        false := hst
    have hrest : scan (take st .name c cs (cs.takeWhile Text.isNameChar).length).state
        (cs.drop (cs.takeWhile Text.isNameChar).length) = .ok rest := hrest
    exact opensComment_of_scan hafter htext (hr ▸ hrest)

/-- The tokens of a text are sound. -/
theorem areSound_scan (s : List Char) (st : State) (hs : kept = true → CallsComments s)
    {ts : List Token} (h : scan st s = .ok ts) : AreSound kept ts := by
  cases s with
  | nil =>
    rw [scan] at h
    have hf := kind_of_mem_finish h
    simpa using areSound_append (r := []) hf ⟨(by rintro _ ⟨⟩), fun _ pre t r he => by simp at he⟩
  | cons c cs =>
    rw [scan] at h
    obtain ⟨x, hx, h⟩ := Parser.ok_of_bind h
    obtain ⟨rest, hrest, h⟩ := Parser.ok_of_bind h
    cases h
    have ih (hsuffix : x.rest <:+ c :: cs) : AreSound kept rest :=
      have := x.shorter
      areSound_scan x.rest x.state (fun hk => (hs hk).suffix hsuffix) hrest
    rcases step_cases hx with ⟨hsuffix, hkinds⟩ |
      ⟨st', c', cs', y, ts, hs', hst, hy, hts, ht, hr, he⟩
    · exact areSound_append hkinds (ih hsuffix)
    · rw [ht, List.append_assoc]
      refine areSound_append hts ?_
      cases hc : Text.isNameStart c' with
      | false =>
        have hless := isNameless_token hy hc
        refine areSound_append hless.kinds (ih ?_)
        exact hr ▸ (hless.suffix.trans (List.suffix_cons _ _)).trans hs'
      | true =>
        refine areSound_name hst hy hc (fun hk => (hs hk).suffix hs') (he ▸ hr ▸ hrest) (ih ?_)
        rw [token_of_isNameStart hc] at hy
        cases hy
        exact hr ▸ ((List.drop_suffix _ _).trans (List.suffix_cons _ _)).trans hs'
termination_by s.length

end Lexer

/-- A block that a text writes is as reading gives it; its comments are those of comment lines if
the text calls comments only by their lines. -/
theorem isGiven_of_parse {kept : Bool} {s : List Char}
    (hs : kept = true → Paragraph.CallsComments s) {b : Block} (h : parse s = .ok b) :
    b.IsGiven kept := by
  obtain ⟨ts, hts, hb⟩ := Parser.ok_of_bind h
  exact (Parser.ofTokens_gives (Lexer.areSound_scan s .init hs hts) hb).1

end ValidUsage
