import ValidUsage.Proofs.ScanRows

/-!
# What a step of the lexer does

Each step takes a token, the end of a line, or something that yields no token, and its state behind
is given by what it took. At the start of a line outside of brackets it first takes the indentation,
or a whole line if the line is taken for a blank one. The other modules on tokens go by these cases
and do not open the lexer.
-/

namespace ValidUsage
namespace Lexer

open Paragraph (EndsLine)

/-- Whether a character is a bracket. -/
def isBracket (c : Char) : Bool := ['(', '[', '{', ')', ']', '}'].contains c

/-- A character that is no bracket leaves the number of open ones. -/
theorem depthAfter?_of_not_isBracket {c : Char} (hc : isBracket c = false) (depth : Nat) :
    depthAfter? c depth = some depth := by
  simp only [isBracket, List.contains_eq_mem, List.mem_cons, List.not_mem_nil, or_false,
    decide_eq_false_iff_not, not_or] at hc
  obtain ⟨h₁, h₂, h₃, h₄, h₅, h₆⟩ := hc
  simp only [depthAfter?, h₁, h₂, h₃, h₄, h₅, h₆, or_self, if_false]

private theorem not_isBracket_of {p : Char → Bool}
    (hp : ['(', '[', '{', ')', ']', '}'].all (!p ·) = true) {c : Char} (hc : p c = true) :
    isBracket c = false := by
  rw [isBracket, List.contains_eq_mem, decide_eq_false_iff_not]
  intro hm
  exact absurd (List.all_eq_true.1 hp c hm) (by simp [hc])

private theorem not_mem_takeWhile_line (s : List Char) :
    '\n' ∉ s.takeWhile fun c => decide (c ≠ '\n') :=
  fun hm => by simpa using List.all_eq_true.1 List.all_takeWhile _ hm

private theorem endsLine_dropWhile (s : List Char) :
    EndsLine (s.dropWhile fun c => decide (c ≠ '\n')) := by
  intro c hc
  have hnot := List.head?_dropWhile_not (fun c => decide (c ≠ '\n')) s
  rw [Option.mem_def.1 hc] at hnot
  simpa using hnot

/-- A line is left up to its end. -/
theorem dropWhile_line_end {u r : List Char} (hu : '\n' ∉ u) (hr : EndsLine r) :
    (u ++ r).dropWhile (fun c => decide (c ≠ '\n')) = r :=
  dropWhile_append_of_head (fun _ hc => decide_eq_true fun he => hu (he ▸ hc))
    fun c hc => decide_eq_false (not_not_intro (hr c hc))

/-! ## Behind an indentation -/

section Token

variable {st : State} {c : Char} {cs : List Char} {x : Step (c :: cs)}

/-- What a step does behind an indentation. -/
inductive Move (st : State) (x : Step (c :: cs)) : Prop
  /-- A token with its text. A bracket is a token of its own. -/
  | token {t : Token} {u : List Char} {depth : Nat} (tokens : x.tokens = [t])
      (kind : t.kind.isLayout = false) (text : t.text.toList = c :: u) (start : t.pos = st.pos)
      (split : cs = u ++ x.rest) (after : depthAfter? c st.depth = some depth)
      (alone : isBracket c = true → t.kind = .op ∧ u = [])
      (state : x.state =
        { st with pos := advance st.pos (c :: u).length, depth, content := true })
  /-- The end of a line, with a token if the line is one of its own that has tokens. -/
  | newline {ends : Bool} (char : c = '\n') (ended : ends = true ↔ st.depth = 0 ∧ st.content = true)
      (tokens : x.tokens = if ends then [⟨.newline, "", st.pos⟩] else []) (rest : x.rest = cs)
      (state : x.state = { st with
        pos := nextLine st.pos, content := st.content && !ends, lineStart := true })
  /-- A blank. -/
  | blank (char : c = ' ' ∨ c = '\t' ∨ c = '\r' ∨ c = '\x0c') (tokens : x.tokens = [])
      (rest : x.rest = cs) (state : x.state = { st with pos := advance st.pos 1 })
  /-- A comment. -/
  | comment {u : List Char} (char : c = '#') (split : cs = u ++ x.rest) (inLine : '\n' ∉ u)
      (ends : EndsLine x.rest) (tokens : x.tokens = [])
      (state : x.state = { st with pos := advance st.pos (c :: u).length })
  /-- A backslash that joins two lines. -/
  | join {u : List Char} (char : c = '\\') (split : cs = u ++ '\n' :: x.rest)
      (carriage : u = [] ∨ u = ['\r']) (tokens : x.tokens = [])
      (state : x.state = { st with pos := nextLine st.pos })

/-- The tokens that start at a character, by the number of characters that they take behind it. -/
inductive Lexeme (c : Char) (cs : List Char) : TokenKind → Nat → Prop
  | str {t r : List Char} (quote : c = '\'' ∨ c = '"') (closes : closeQuote? c cs = some (t, r)) :
      Lexeme c cs .str t.length
  | number {n : Nat} (start : isNumberChar c = true)
      (length : n = (numberText (c :: cs)).length - 1)
      (ends : ∀ x ∈ (cs.drop n).head?, Text.isNameStart x = false) : Lexeme c cs .number n
  | name (start : Text.isNameStart c = true) :
      Lexeme c cs .name (cs.takeWhile Text.isNameChar).length
  | op {n : Nat} (length : operatorLength? (c :: cs) = some n) : Lexeme c cs .op (n - 1)

/-- Whether a step takes a token. -/
def TakesLexeme (st : State) (x : Step (c :: cs)) : Prop :=
  ∃ kind n depth, Lexeme c cs kind n ∧ depthAfter? c st.depth = some depth ∧
    x = take { st with depth } kind c cs n

namespace Lexeme

variable {kind : TokenKind} {n : Nat}

private theorem not_isLayout (h : Lexeme c cs kind n) : kind.isLayout = false := by
  cases h <;> rfl

/-- A bracket is a token of its own. -/
theorem alone (h : Lexeme c cs kind n) (hc : isBracket c = true) :
    kind = .op ∧ cs.take n = [] := by
  have none {p : Char → Bool} (hp : ['(', '[', '{', ')', ']', '}'].all (!p ·) = true)
      (hstart : p c = true) : False :=
    absurd (hc.symm.trans (not_isBracket_of hp hstart)) nofun
  cases h with
  | str quote => rcases quote with rfl | rfl <;> exact absurd hc (by decide)
  | number start => exact (none (by decide) start).elim
  | name start => exact (none (by decide) start).elim
  | op length =>
    obtain ⟨-, ⟨rfl, -⟩ | hinner⟩ := operator_chars length
    · exact ⟨rfl, rfl⟩
    · exact (none (by decide) (hinner c List.mem_cons_self)).elim

private theorem move (h : Lexeme c cs kind n) {depth : Nat}
    (hdepth : depthAfter? c st.depth = some depth) :
    Move st (take { st with depth } kind c cs n) :=
  .token rfl h.not_isLayout String.toList_ofList rfl (List.take_append_drop n cs).symm hdepth
    h.alone (by rw [List.length_cons, Nat.add_comm]; rfl)

end Lexeme

/-- Only a bracket, which is an operator, changes the number of open ones. -/
theorem takesLexeme_of_not_isBracket {kind : TokenKind} {n : Nat} (h : Lexeme c cs kind n)
    (hc : isBracket c = false) : TakesLexeme st (take st kind c cs n) :=
  ⟨kind, n, st.depth, h, depthAfter?_of_not_isBracket hc st.depth, rfl⟩

private theorem takesLexeme_of_number (h : number st c cs = .ok x) (hc : isNumberChar c = true) :
    TakesLexeme st x := by
  have hbracket : isBracket c = false := not_isBracket_of (by decide) hc
  unfold number at h
  dsimp only at h
  split at h
  · rename_i c' r hdrop
    split at h
    · exact absurd h nofun
    · rename_i hname
      cases h
      refine takesLexeme_of_not_isBracket (.number hc rfl fun x hx => ?_) hbracket
      rw [hdrop] at hx
      obtain rfl := Option.some.inj hx
      exact Bool.eq_false_iff.2 hname
  · rename_i hdrop
    cases h
    exact takesLexeme_of_not_isBracket (.number hc rfl (by rw [hdrop]; nofun)) hbracket

private theorem takesLexeme_of_operator (h : operator st c cs = .ok x) : TakesLexeme st x := by
  unfold operator at h
  split at h
  · exact absurd h nofun
  rename_i n hn
  split at h
  · exact absurd h nofun
  rename_i depth hdepth
  cases h
  exact ⟨.op, n - 1, depth, .op hn, hdepth, rfl⟩

/-- A step takes a token, or else it yields at most the end of a line. -/
theorem token_cases (h : token st c cs = .ok x) :
    TakesLexeme st x ∨ (Move st x ∧ ∀ t ∈ x.tokens, t.kind = .newline) := by
  unfold token at h
  split at h
  · rename_i hc
    cases h
    by_cases hends : st.depth = 0 ∧ st.content = true
    · refine .inr ⟨.newline hc (show true = true ↔ _ from iff_of_true rfl hends) (if_pos hends) rfl
        (by simp [hends]), fun t ht => ?_⟩
      rw [show _ = [_] from if_pos hends, List.mem_singleton] at ht
      rw [ht]
    · refine .inr ⟨.newline hc (show false = true ↔ _ from iff_of_false Bool.false_ne_true hends)
        (if_neg hends) rfl (by simp [hends]), fun t ht => ?_⟩
      rw [show _ = [] from if_neg hends] at ht
      exact absurd ht List.not_mem_nil
  split at h
  · rename_i hc
    cases h
    exact .inr ⟨.blank hc rfl rfl rfl, (by rintro _ ⟨⟩)⟩
  split at h
  · rename_i hc
    cases h
    exact .inr ⟨.comment hc List.takeWhile_append_dropWhile.symm (not_mem_takeWhile_line cs)
      (endsLine_dropWhile cs) rfl (by rw [List.length_cons, Nat.add_comm]), (by rintro _ ⟨⟩)⟩
  split at h
  · rename_i hc
    split at h
    · cases h
      exact .inr ⟨.join (u := []) hc rfl (.inl rfl) rfl rfl, (by rintro _ ⟨⟩)⟩
    · cases h
      exact .inr ⟨.join (u := ['\r']) hc rfl (.inr rfl) rfl rfl, (by rintro _ ⟨⟩)⟩
    · cases h
  split at h
  · rename_i hc
    split at h
    · cases h
    · rename_i t r hclose
      cases h
      refine .inl (takesLexeme_of_not_isBracket (.str hc hclose) ?_)
      rcases hc with rfl | rfl <;> decide
  split at h
  · rename_i hc
    refine .inl (takesLexeme_of_number h ?_)
    simp [isNumberChar, Text.isNameChar, Char.isAlphanum, hc]
  split at h
  · rename_i hc
    exact .inl (takesLexeme_of_number h (by rw [hc.1]; decide))
  split at h
  · rename_i hc
    cases h
    exact .inl (takesLexeme_of_not_isBracket (.name hc) (not_isBracket_of (by decide) hc))
  · exact .inl (takesLexeme_of_operator h)

/-- What the lexer does where a token starts is one of its moves. -/
theorem move_token (h : token st c cs = .ok x) : Move st x := by
  obtain ⟨kind, n, depth, hlexeme, hdepth, rfl⟩ | ⟨hmove, -⟩ := token_cases h
  · exact hlexeme.move hdepth
  · exact hmove

/-- What a token takes, if it is no end of a line. -/
theorem lexeme_of_mem (h : token st c cs = .ok x) {t : Token} (ht : t ∈ x.tokens)
    (hk : t.kind.isLayout = false) : ∃ n, Lexeme c cs t.kind n ∧ x.rest = cs.drop n ∧
      t = ⟨t.kind, String.ofList (c :: cs.take n), st.pos⟩ := by
  obtain ⟨kind, n, depth, hlexeme, -, rfl⟩ | ⟨-, hline⟩ := token_cases h
  · obtain rfl := List.mem_singleton.1 ht
    exact ⟨n, hlexeme, rfl, rfl⟩
  · exact absurd (hk.symm.trans (congrArg TokenKind.isLayout (hline t ht))) nofun

end Token

/-! ## At any place -/

section Step

variable {st : State} {c : Char} {cs : List Char} {x : Step (c :: cs)}

/-- What a step does: it takes a line that is taken for a blank one, with its end, or the
indentation of another line with what stands behind it, or what stands elsewhere. -/
inductive Turn (st : State) (x : Step (c :: cs)) : Prop
  | blankLine {u line tail : List Char} (start : st.lineStart = true ∧ st.depth = 0)
      (split : c :: cs = u ++ (line ++ tail)) (blanks : ∀ c ∈ u, c = ' ' ∨ c = '\t' ∨ c = '\x0c')
      (indent : (indentation 0 (u ++ line)).2 = line) (whole : '\n' ∉ line) (ends : EndsLine tail)
      (blank : isBlankLine (line ++ tail) = true) (tokens : x.tokens = [])
      (rest : x.rest = tail.tail)
      (state : x.state = { st with
        pos := if tail.isEmpty then advance st.pos (u ++ line).length else nextLine st.pos })
  | textLine {u : List Char} {c' : Char} {cs' : List Char} {y : Step (c' :: cs')}
      {layoutTokens : List Token} {indents : List Nat} (start : st.lineStart = true ∧ st.depth = 0)
      (split : c :: cs = u ++ c' :: cs') (blanks : ∀ c ∈ u, c = ' ' ∨ c = '\t' ∨ c = '\x0c')
      (indent : (indentation 0 (c :: cs)).2 = c' :: cs') (full : isBlankLine (c' :: cs') = false)
      (layout : layout st.indents (indentation 0 (c :: cs)).1 (advance st.pos u.length) =
        .ok (layoutTokens, indents))
      (token : token { st with
        pos := advance st.pos u.length
        indents := indents
        content := layoutTokens.isEmpty && st.content
        lineStart := false } c' cs' = .ok y)
      (tokens : x.tokens = layoutTokens ++ y.tokens) (rest : x.rest = y.rest)
      (state : x.state = y.state)
  | inside (start : ¬(st.lineStart = true ∧ st.depth = 0))
      (token : token { st with lineStart := false } c cs = .ok x)

/-- What a step does is one of the turns of the lexer. -/
theorem turn_step (h : step st c cs = .ok x) : Turn st x := by
  unfold step at h
  split at h
  · rename_i hstart
    obtain ⟨u, hu, hblanks, hindent⟩ := indentation_eq 0 (c :: cs)
    dsimp only at h
    split at h
    · rename_i hnil
      rw [hnil] at hu
      cases h
      have hindent : (indentation 0 (u ++ [])).2 = [] :=
        congrArg Prod.snd (hindent (by rintro _ ⟨⟩))
      have hends : EndsLine [] := (by rintro _ ⟨⟩)
      have hsplit : c :: cs = u ++ ([] ++ []) := hu
      exact .blankLine hstart hsplit hblanks hindent List.not_mem_nil hends
        rfl rfl rfl (by rw [← hu]; rfl)
    rename_i c' cs' hr
    rw [hr] at hu
    split at h
    · rename_i hblank
      let line := (c' :: cs').takeWhile fun c => decide (c ≠ '\n')
      let tail := (c' :: cs').dropWhile fun c => decide (c ≠ '\n')
      have hsplit : line ++ tail = c' :: cs' := List.takeWhile_append_dropWhile
      have hhead : ∀ c ∈ line.head?, c ≠ ' ' ∧ c ≠ '\t' ∧ c ≠ '\x0c' := by
        intro c hc
        have hc' : (line ++ tail).head? = some c := by
          rw [List.head?_append, Option.mem_def.1 hc]
          rfl
        rw [hsplit] at hc'
        obtain rfl : c' = c := by simpa using hc'
        exact indentation_head hr
      have hindent : (indentation 0 (u ++ line)).2 = line := congrArg Prod.snd (hindent hhead)
      have turn {x : Step (c :: cs)} (htokens : x.tokens = []) (hrest : x.rest = tail.tail)
          (hstate : x.state = { st with
            pos := if tail.isEmpty then advance st.pos (u ++ line).length else nextLine st.pos }) :
          Turn st x :=
        .blankLine hstart (by rw [hsplit]; exact hu) hblanks hindent (not_mem_takeWhile_line _)
          (endsLine_dropWhile _) (by rw [hsplit]; exact hblank) htokens hrest hstate
      split at h
      · rename_i htail
        have htail : tail = [] := htail
        cases h
        have hline : u ++ line = c :: cs := by rw [hu, ← hsplit, htail, List.append_nil]
        exact turn rfl (by rw [htail]; rfl) (by rw [htail, hline]; rfl)
      · rename_i d r htail
        have htail : tail = d :: r := htail
        cases h
        exact turn rfl (by rw [htail]; rfl) (by rw [htail]; rfl)
    · rename_i hfull
      have hlength : (c :: cs).length - (c' :: cs').length = u.length := by
        rw [hu, List.length_append, Nat.add_sub_cancel]
      rw [hlength] at h
      obtain ⟨⟨layoutTokens, indents⟩, hlayout, h⟩ := Parser.ok_of_bind h
      obtain ⟨y, hy, h⟩ := Parser.ok_of_bind h
      cases h
      have hfull : isBlankLine (c' :: cs') = false := by simpa using hfull
      have hcontent : (if layoutTokens.isEmpty then st.content else false) =
          (layoutTokens.isEmpty && st.content) := by cases layoutTokens.isEmpty <;> rfl
      rw [hcontent] at hy
      exact .textLine hstart hu hblanks hr hfull hlayout hy rfl rfl rfl
  · rename_i hstart
    exact .inside hstart h

end Step

end Lexer
end ValidUsage
