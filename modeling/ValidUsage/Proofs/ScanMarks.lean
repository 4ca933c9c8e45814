import ValidUsage.Proofs.Legible

/-!
# Scanning marks

The tokens of legible marks are the tokens of each mark, one after the other. Where a token stands
is left open: nothing that is read from the tokens of a statement depends on it but positions.
-/

namespace ValidUsage

/-- A token without its position. -/
def Token.bare (t : Token) : TokenKind × String := (t.kind, t.text)

/-- The token of a word or an operator. -/
def wordOrOperator (t : String) : TokenKind × String :=
  if t.toList.head?.any Text.isNameStart then (.name, t) else (.op, t)

/-- The tokens of a mark. Blanks and ends of lines within brackets have none. -/
def Mark.tokens : Mark → List (TokenKind × String)
  | plain t => if t = " " then [] else if t = ", " then [(.op, ",")] else [wordOrOperator t]
  | operator t =>
    if t = "is not" then [(.name, "is"), (.name, "not")]
    else if t = "not in" then [(.name, "not"), (.name, "in")]
    else [wordOrOperator t]
  | number t => [(.number, t)]
  | literal t => if t.toList.head? = some '\'' then [(.str, t)] else [(.name, t)]
  | keyword t | name t | feature t | predicate t => [(.name, t)]
  | comment t =>
    [(.name, commentName), (.op, "("),
      (.str, String.ofList ('"' :: (Paragraph.quoteComment t.toList ++ ['"']))), (.op, ")")]
  | openParen => [(.op, "(")]
  | closeParen => [(.op, ")")]
  | openBracket => [(.op, "[")]
  | closeBracket => [(.op, "]")]
  | lineBreak _ => []

/-- A plain mark that is a word is a name. -/
theorem tokens_plain {t : String} (ht : IsWord t) : (Mark.plain t).tokens = [(.name, t)] := by
  have h₁ : t ≠ " " := by
    rintro rfl
    exact absurd ht.head (by decide)
  have h₂ : t ≠ ", " := by
    rintro rfl
    exact absurd ht.head (by decide)
  rw [Mark.tokens, if_neg h₁, if_neg h₂, wordOrOperator, if_pos ht.head]

@[simp] theorem Mark.tokens_keyword (w : String) : (keyword w).tokens = [(.name, w)] := rfl

@[simp] theorem Mark.tokens_blank : blank.tokens = [] := by decide

@[simp] theorem Mark.tokens_comma : comma.tokens = [(.op, ",")] := by decide

@[simp] theorem Mark.tokens_colon : colon.tokens = [(.op, ":")] := by decide

/-- The tokens of marks. -/
def tokensOf (ms : List Mark) : List (TokenKind × String) := ms.flatMap Mark.tokens

@[simp] theorem tokensOf_nil : tokensOf [] = [] := rfl

@[simp] theorem tokensOf_cons (m : Mark) (ms : List Mark) :
    tokensOf (m :: ms) = m.tokens ++ tokensOf ms := rfl

@[simp] theorem tokensOf_append (ms ms' : List Mark) :
    tokensOf (ms ++ ms') = tokensOf ms ++ tokensOf ms' := List.flatMap_append

namespace Lexer

/-- Whether the next character does not start a line, as far as indentation goes. -/
def State.IsInline (st : State) : Prop := st.lineStart = false ∨ 0 < st.depth

/-- Whether a text in front of another one yields tokens, within a line, and takes the number of
open brackets from `d` to `d'`. -/
def Scans (d : Nat) (s : List Char) (ts : List (TokenKind × String)) (d' : Nat) (r : List Char) :
    Prop :=
  ∀ st : State, st.depth = d → st.IsInline → ∃ (toks : List Token) (st' : State),
    toks.map Token.bare = ts ∧ st'.depth = d' ∧ st'.indents = st.indents ∧
      st'.content = (st.content || !ts.isEmpty) ∧ st'.IsInline ∧
      scan st (s ++ r) = (scan st' r).map (toks ++ ·)

/-- No text yields no tokens. -/
theorem Scans.nil (d : Nat) (r : List Char) : Scans d [] [] d r := by
  intro st hd hi
  refine ⟨[], st, rfl, hd, rfl, by simp, hi, ?_⟩
  rw [List.nil_append]
  cases scan st r <;> rfl

/-- Texts one after the other yield their tokens one after the other. -/
theorem Scans.append {d d' d'' : Nat} {s s' r : List Char} {ts ts' : List (TokenKind × String)}
    (h : Scans d s ts d' (s' ++ r)) (h' : Scans d' s' ts' d'' r) :
    Scans d (s ++ s') (ts ++ ts') d'' r := by
  intro st hd hi
  obtain ⟨toks, st₁, ht, hd₁, hs₁, hc₁, hi₁, he₁⟩ := h st hd hi
  obtain ⟨toks', st₂, ht', hd₂, hs₂, hc₂, hi₂, he₂⟩ := h' st₁ hd₁ hi₁
  refine ⟨toks ++ toks', st₂, by rw [List.map_append, ht, ht'], hd₂, hs₂.trans hs₁, ?_, hi₂, ?_⟩
  · rw [hc₂, hc₁]
    cases st.content <;> cases ts <;> cases ts' <;> rfl
  · rw [List.append_assoc, he₁, he₂]
    cases scan st₂ r with
    | error e => rfl
    | ok ts => simp [Except.map]

/-- Within a line a step is the step at a character. -/
theorem scan_cons {st : State} (hi : st.IsInline) (c : Char) (cs : List Char) :
    scan st (c :: cs) = (token { st with lineStart := false } c cs).bind fun x =>
      (scan x.state x.rest).map (x.tokens ++ ·) := by
  have hs : ¬ (st.lineStart = true ∧ st.depth = 0) := by
    rcases hi with hi | hi
    · simp [hi]
    · omega
  rw [scan, step, if_neg hs]
  cases token { st with lineStart := false } c cs with
  | error e => rfl
  | ok x =>
    simp only [bind, Except.bind]
    cases scan x.state x.rest <;> rfl

private theorem Scans.of_step {d d' : Nat} {c : Char} {cs r : List Char}
    {ts : List (TokenKind × String)}
    (h : ∀ st : State, st.depth = d → ∃ x, token st c (cs ++ r) = .ok x ∧ x.rest = r ∧
      x.tokens.map Token.bare = ts ∧ x.state.depth = d' ∧ x.state.indents = st.indents ∧
      x.state.content = (st.content || !ts.isEmpty) ∧
      (st.lineStart = false → x.state.IsInline)) : Scans d (c :: cs) ts d' r := by
  intro st hd hi
  obtain ⟨x, hx, hr, ht, hd', hs, hc, hi'⟩ := h { st with lineStart := false } hd
  refine ⟨x.tokens, x.state, ht, hd', hs, hc, hi' rfl, ?_⟩
  rw [List.cons_append, scan_cons hi, hx]
  show (scan x.state x.rest).map (x.tokens ++ ·) = _
  rw [hr]

private theorem Scans.of_take {d d' : Nat} {kind : TokenKind} {c : Char} {cs r : List Char}
    (h : ∀ st : State, st.depth = d →
      token st c (cs ++ r) = .ok (take { st with depth := d' } kind c (cs ++ r) cs.length)) :
    Scans d (c :: cs) [(kind, String.ofList (c :: cs))] d' r := by
  refine .of_step fun st hd => ⟨_, h st hd, ?_, ?_, rfl, rfl, ?_, fun hl => .inl hl⟩
  · simp [take]
  · simp [take, Token.bare]
  · simp [take]

private theorem scans_blank (d : Nat) (r : List Char) : Scans d [' '] [] d r := by
  refine .of_step fun st hd => ⟨⟨[], { st with pos := advance st.pos 1 }, r,
    Text.length_lt_cons ' ' r⟩, ?_, rfl, rfl, hd, rfl, by simp, fun hl => .inl hl⟩
  simp [token]

private theorem scans_blanks (n d : Nat) (r : List Char) :
    Scans d (List.replicate n ' ') [] d r := by
  induction n with
  | zero => exact .nil d r
  | succ n ih => exact (scans_blank d _).append ih

private theorem scans_lineBreak {d : Nat} (hd : 0 < d) (n : Nat) (r : List Char) :
    Scans d ('\n' :: List.replicate n ' ') [] d r := by
  have hs : Scans d ['\n'] [] d (List.replicate n ' ' ++ r) := by
    refine .of_step fun st hst => ⟨_, rfl, rfl, ?_, hst, rfl, ?_, fun _ => .inr (hst ▸ hd)⟩
    all_goals
      have hne : ¬ (st.depth = 0 ∧ st.content = true) := by omega
      simp [hne]
  exact hs.append (scans_blanks n d r)

/-- A character that starts names starts the longest word that follows. -/
theorem token_of_isNameStart {c : Char} (hc : Text.isNameStart c = true) (st : State)
    (cs : List Char) :
    token st c cs = .ok (take st .name c cs (cs.takeWhile Text.isNameChar).length) := by
  have hd := isDigit_of_isNameStart hc
  have hne : ∀ x, Text.isNameStart x = false → c ≠ x := by
    rintro x hx rfl
    simp [hc] at hx
  simp [token, hd, hc, hne '\n' (by decide), hne ' ' (by decide), hne '\t' (by decide),
    hne '\r' (by decide), hne '\x0c' (by decide), hne '#' (by decide), hne '\\' (by decide),
    hne '\'' (by decide), hne '"' (by decide), hne '.' (by decide)]

/-- A word is one token, in front of what does not go on with it. -/
theorem scans_word {t : String} (ht : IsWord t) {d : Nat} {r : List Char}
    (hr : ∀ c ∈ r.head?, Text.isNameChar c = false) : Scans d t.toList [(.name, t)] d r := by
  obtain ⟨c, cs, he, hc, hcs⟩ := ht
  obtain rfl : t = String.ofList (c :: cs) := by rw [← he, String.ofList_toList]
  rw [he]
  refine .of_take fun st hd => ?_
  rw [token_of_isNameStart hc, takeWhile_append_of_head hcs hr, ← hd]

/-- A digit starts a number. -/
theorem token_of_isDigit {c : Char} (hc : c.isDigit = true) (st : State) (cs : List Char) :
    token st c cs = number st c cs := by
  have hne : ∀ x, x.isDigit = false → c ≠ x := fun x hx => isDigit_ne hc hx
  simp [token, hc, hne '\n' (by decide), hne ' ' (by decide), hne '\t' (by decide),
    hne '\r' (by decide), hne '\x0c' (by decide), hne '#' (by decide), hne '\\' (by decide),
    hne '\'' (by decide), hne '"' (by decide)]

private theorem scans_number {t : String} (ht : IsNumeral t) {d : Nat} {r : List Char}
    (hr : ∀ c ∈ r.head?, endsNumber c = true) : Scans d t.toList [(.number, t)] d r := by
  obtain ⟨c, cs, he, hc⟩ := ht.head
  have hn := ht.numberText r hr
  obtain rfl : t = String.ofList (c :: cs) := by rw [← he, String.ofList_toList]
  rw [he] at hn ⊢
  refine .of_take fun st hd => ?_
  have hlen : (numberText (c :: (cs ++ r))).length - 1 = cs.length := by
    rw [← List.cons_append, hn, List.length_cons, Nat.add_sub_cancel]
  rw [token_of_isDigit hc, number, hlen, List.drop_left, ← hd]
  cases r with
  | nil => rfl
  | cons c' r =>
    have hs : Text.isNameStart c' = false := by
      rw [← Bool.not_eq_true]
      intro h
      have he := hr c' rfl
      simp [endsNumber, isNameChar_of_isNameStart h] at he
    simp only [hs, Bool.false_eq_true, if_false]

/-- A plain character in a string is passed over. -/
theorem closeQuote?_cons {quote c : Char} (hb : c ≠ '\\') (hn : c ≠ '\n') (hq : c ≠ quote)
    (r : List Char) :
    closeQuote? quote (c :: r) = (closeQuote? quote r).map fun (t, r') => (c :: t, r') := by
  rw [closeQuote?.eq_def]
  split
  · simp_all
  · simp_all
  · next he =>
    simp only [List.cons.injEq] at he
    obtain ⟨rfl, rfl⟩ := he
    rw [if_neg hn, if_neg hq]

/-- The quote that opened a string closes it. -/
theorem closeQuote?_close {quote : Char} (hb : quote ≠ '\\') (hn : quote ≠ '\n') (r : List Char) :
    closeQuote? quote (quote :: r) = some ([quote], r) := by
  rw [closeQuote?.eq_def]
  split
  · simp_all
  · simp_all
  · next he =>
    simp only [List.cons.injEq] at he
    obtain ⟨rfl, rfl⟩ := he
    rw [if_neg hn, if_pos rfl]

/-- A backslash in a string takes the next character with it. -/
theorem closeQuote?_backslash (quote c : Char) (r : List Char) :
    closeQuote? quote ('\\' :: c :: r) =
      (closeQuote? quote r).map fun (t, r') => ('\\' :: c :: t, r') := rfl

private theorem closeQuote?_escapeChar (c : Char) (r : List Char) :
    closeQuote? '\'' (Literal.escapeChar c ++ r) =
      (closeQuote? '\'' r).map fun (t, r') => (Literal.escapeChar c ++ t, r') := by
  unfold Literal.escapeChar
  repeat' split
  all_goals first
    | exact closeQuote?_backslash _ _ r
    | exact closeQuote?_cons (by assumption) (by assumption) (by assumption) r

private theorem closeQuote?_escape (s r : List Char) :
    closeQuote? '\'' (Literal.escape s ++ '\'' :: r) =
      some (Literal.escape s ++ ['\''], r) := by
  induction s with
  | nil => exact closeQuote?_close (by decide) (by decide) r
  | cons c cs ih =>
    have hs : Literal.escape (c :: cs) = Literal.escapeChar c ++ Literal.escape cs := rfl
    rw [hs, List.append_assoc, closeQuote?_escapeChar, ih, Option.map_some, List.append_assoc]

/-- A quoted comment on one line ends with its quote. -/
theorem closeQuote?_quoteComment {s : List Char} (hs : '\n' ∉ s) (r : List Char) :
    closeQuote? '"' (Paragraph.quoteComment s ++ '"' :: r) =
      some (Paragraph.quoteComment s ++ ['"'], r) := by
  induction s with
  | nil => exact closeQuote?_close (by decide) (by decide) r
  | cons c cs ih =>
    have hn : c ≠ '\n' := by
      rintro rfl
      exact hs List.mem_cons_self
    have ih := ih fun h => hs (List.mem_cons_of_mem _ h)
    have he : Paragraph.quoteComment (c :: cs) =
        (if c = '\\' ∨ c = '"' then ['\\', c] else [c]) ++ Paragraph.quoteComment cs := rfl
    rw [he]
    by_cases hc : c = '\\' ∨ c = '"'
    · rw [if_pos hc]
      simp only [List.cons_append, List.nil_append]
      rw [closeQuote?_backslash, ih]
      rfl
    · rw [if_neg hc]
      simp only [List.cons_append, List.nil_append]
      rw [closeQuote?_cons (fun h => hc (.inl h)) hn (fun h => hc (.inr h)), ih]
      rfl

/-- A quoted text that closes is one token. -/
theorem scans_str {quote : Char} (hq : quote = '\'' ∨ quote = '"') {cs : List Char} {d : Nat}
    {r : List Char} (h : closeQuote? quote (cs ++ r) = some (cs, r)) :
    Scans d (quote :: cs) [(.str, String.ofList (quote :: cs))] d r := by
  refine .of_take fun st hd => ?_
  have ht : token st quote (cs ++ r) = .ok (take st .str quote (cs ++ r) cs.length) := by
    rcases hq with rfl | rfl <;> simp [token, h]
  rw [ht, ← hd]

private theorem scans_quote (s : String) {d : Nat} {r : List Char} :
    Scans d (Literal.quote s).toList [(.str, Literal.quote s)] d r := by
  rw [Literal.quote, String.toList_ofList]
  refine scans_str (.inl rfl) ?_
  show closeQuote? '\'' (Literal.escape s.toList ++ ['\''] ++ r) = _
  rw [List.append_assoc]
  exact closeQuote?_escape s.toList r

/-! ## Operators -/

/-- Operators can be looked up by their characters. -/
theorem contains_ofList (ops : List String) (s : List Char) :
    ops.contains (String.ofList s) = (ops.map String.toList).contains s := by
  rw [Bool.eq_iff_iff, List.contains_iff_mem, List.contains_iff_mem, List.mem_map]
  constructor
  · intro h
    exact ⟨_, h, String.toList_ofList⟩
  · rintro ⟨t, ht, rfl⟩
    rwa [String.ofList_toList]

private theorem operators₃_toList : operators₃.map String.toList =
    [['*', '*', '='], ['/', '/', '='], ['>', '>', '='], ['<', '<', '=']] := rfl

private theorem operators₂_toList : operators₂.map String.toList =
    [['*', '*'], ['/', '/'], ['<', '<'], ['>', '>'], ['<', '='], ['>', '='], ['=', '='],
     ['!', '='], ['-', '>'], [':', '='], ['+', '='], ['-', '='], ['*', '='], ['/', '='],
     ['%', '='], ['&', '='], ['|', '='], ['^', '='], ['@', '=']] := rfl

/-- Whether no operator starts with two characters. -/
def endsOperator (c c' : Char) : Bool := !(operators₂.map String.toList).contains [c, c']

private theorem operatorLength?_one {c : Char} (hc : c ∈ operators₁) {r : List Char}
    (hr : ∀ c' ∈ r.head?, endsOperator c c' = true) : operatorLength? (c :: r) = some 1 := by
  unfold operatorLength?
  rw [contains_ofList, contains_ofList]
  match r with
  | [] => simp [operators₂_toList, operators₃_toList, hc]
  | c' :: r =>
    have hr := hr c' rfl
    have h₂ : (operators₂.map String.toList).contains ((c :: c' :: r).take 2) = false := by
      simpa [endsOperator] using hr
    have h₃ : (operators₃.map String.toList).contains ((c :: c' :: r).take 3) = false := by
      rw [← Bool.not_eq_true, List.contains_iff_mem]
      intro h
      simp only [operators₃_toList, List.take_succ_cons, List.mem_cons, List.cons.injEq,
        List.not_mem_nil, or_false] at h
      rcases h with ⟨rfl, rfl, -⟩ | ⟨rfl, rfl, -⟩ | ⟨rfl, rfl, -⟩ | ⟨rfl, rfl, -⟩
      all_goals exact absurd hr (by decide)
    rw [h₂, h₃]
    simp [hc]

private theorem operatorLength?_two {c c' : Char}
    (hc : operators₂.contains (String.ofList [c, c']) = true)
    {r : List Char} (hr : ∀ x ∈ r.head?, x ≠ '=') : operatorLength? (c :: c' :: r) = some 2 := by
  have h₃ : operators₃.contains (String.ofList ((c :: c' :: r).take 3)) = false := by
    rw [contains_ofList, ← Bool.not_eq_true, List.contains_iff_mem, operators₃_toList]
    match r with
    | [] => simp
    | x :: r =>
      have hx := hr x rfl
      simp [hx]
  rw [operatorLength?, h₃]
  simp only [Bool.false_eq_true, if_false, List.take_succ_cons, List.take_zero, hc, if_true]

private theorem operatorLength?_three {c c' c'' : Char}
    (hc : operators₃.contains (String.ofList [c, c', c'']) = true) (r : List Char) :
    operatorLength? (c :: c' :: c'' :: r) = some 3 := by
  simp only [operatorLength?, List.take_succ_cons, List.take_zero, hc, if_true]

/-- The characters with which operators start. -/
def operatorStarts : List Char := "+-*/%@|^&~<>()[],:.=!".toList

private theorem token_of_mem_operatorStarts {c : Char} (hc : c ∈ operatorStarts) {cs : List Char}
    (hp : c = '.' → ∀ c' ∈ cs.head?, c'.isDigit = false) (st : State) :
    token st c cs = operator st c cs := by
  have hp' : ¬ (c = '.' ∧ cs.head?.any Char.isDigit = true) := by
    rintro ⟨rfl, hd⟩
    cases cs with
    | nil => exact absurd hd (by decide)
    | cons c' cs => simp [hp rfl c' rfl] at hd
  have hstart : ∀ c ∈ operatorStarts, c ≠ '\n' ∧ c ≠ ' ' ∧ c ≠ '\t' ∧ c ≠ '\r' ∧ c ≠ '\x0c' ∧
      c ≠ '#' ∧ c ≠ '\\' ∧ c ≠ '\'' ∧ c ≠ '"' ∧ c.isDigit = false ∧
      Text.isNameStart c = false := forall_mem_of_all (by decide)
  obtain ⟨h₁, h₂, h₃, h₄, h₅, h₆, h₇, h₈, h₉, h₁₀, h₁₁⟩ := hstart c hc
  simp only [token, h₁, h₂, h₃, h₄, h₅, h₆, h₇, h₈, h₉, h₁₀, h₁₁, hp', or_self, if_false,
    Bool.false_eq_true]

private theorem scans_operator {c : Char} {cs : List Char} (hc : c ∈ operatorStarts) {d d' : Nat}
    {r : List Char} (hp : c = '.' → ∀ c' ∈ (cs ++ r).head?, c'.isDigit = false)
    (hlen : operatorLength? (c :: (cs ++ r)) = some (c :: cs).length)
    (hd : depthAfter? c d = some d') :
    Scans d (c :: cs) [(.op, String.ofList (c :: cs))] d' r := by
  refine .of_take fun st hst => ?_
  rw [token_of_mem_operatorStarts hc hp, operator, hlen]
  simp only [hst, hd]
  rfl

/-- Whether a text is an operator that can be told from a blank or an end of line behind it, and
that leaves the number of open brackets as it is. -/
def isPlainOperator (t : String) : Bool :=
  match t.toList with
  | [c] => isPlain c && operators₁.contains c && endsOperator c ' ' && endsOperator c '\n'
  | [c, c'] => isPlain c && operators₂.contains (String.ofList [c, c'])
  | [c, c', c''] => isPlain c && operators₃.contains (String.ofList [c, c', c''])
  | _ => false
where
  /-- Whether a character starts an operator that is neither a bracket nor a point. -/
  isPlain (c : Char) : Bool := "+-*/%@|^&~<>=!,:".toList.contains c

private theorem scans_of_isPlain {c : Char} (hc : isPlainOperator.isPlain c = true) {cs : List Char}
    {d : Nat} {r : List Char} (hlen : operatorLength? (c :: (cs ++ r)) = some (c :: cs).length) :
    Scans d (c :: cs) [(.op, String.ofList (c :: cs))] d r := by
  have hc' : c ∈ operatorStarts ∧ c ≠ '.' ∧ c ≠ '(' ∧ c ≠ '[' ∧ c ≠ '{' ∧ c ≠ ')' ∧ c ≠ ']' ∧
      c ≠ '}' := by
    have hall : ∀ c ∈ "+-*/%@|^&~<>=!,:".toList, c ∈ operatorStarts ∧ c ≠ '.' ∧ c ≠ '(' ∧
      c ≠ '[' ∧ c ≠ '{' ∧ c ≠ ')' ∧ c ≠ ']' ∧ c ≠ '}' := forall_mem_of_all (by decide)
    exact hall c (List.contains_iff_mem.1 hc)
  obtain ⟨hs, hp, h₁, h₂, h₃, h₄, h₅, h₆⟩ := hc'
  refine scans_operator hs (fun he => absurd he hp) hlen ?_
  simp [depthAfter?, h₁, h₂, h₃, h₄, h₅, h₆]

private theorem scans_of_isPlainOperator {t : String} (ht : isPlainOperator t = true) {d : Nat}
    {r : List Char} (hr : ∀ c ∈ r.head?, c = ' ' ∨ c = '\n') :
    Scans d t.toList [(.op, t)] d r := by
  have hne : ∀ c ∈ r.head?, c ≠ '=' := by
    rintro c hc rfl
    exact absurd (hr _ hc) (by decide)
  unfold isPlainOperator at ht
  split at ht
  next c he =>
    obtain rfl : t = String.ofList [c] := by rw [← he, String.ofList_toList]
    simp only [Bool.and_eq_true, List.contains_iff_mem] at ht
    obtain ⟨⟨⟨hc, h₁⟩, hb⟩, hn⟩ := ht
    rw [he]
    refine scans_of_isPlain hc (operatorLength?_one h₁ fun c' hc' => ?_)
    rcases hr c' hc' with rfl | rfl
    · exact hb
    · exact hn
  next c c' he =>
    obtain rfl : t = String.ofList [c, c'] := by rw [← he, String.ofList_toList]
    simp only [Bool.and_eq_true] at ht
    rw [he]
    exact scans_of_isPlain ht.1 (operatorLength?_two ht.2 hne)
  next c c' c'' he =>
    obtain rfl : t = String.ofList [c, c', c''] := by rw [← he, String.ofList_toList]
    simp only [Bool.and_eq_true] at ht
    rw [he]
    exact scans_of_isPlain ht.1 (operatorLength?_three ht.2 r)
  next => exact absurd ht (by decide)

private theorem infix_cases : ∀ t ∈ Mark.infixes,
    (t ∈ ["not", "and", "or", "is", "in"] ∧ (Mark.operator t).tokens = [(.name, t)]) ∨
      t = "is not" ∨ t = "not in" ∨
      (isPlainOperator t = true ∧ (Mark.operator t).tokens = [(.op, t)]) := by
  decide +kernel

private theorem scans_two_words {t t' : String} (ht : IsWord t) (ht' : IsWord t') {d : Nat}
    {r : List Char}
    (hr : ∀ c ∈ r.head?, Text.isNameChar c = false) :
    Scans d (t.toList ++ ' ' :: t'.toList) [(.name, t), (.name, t')] d r := by
  have hb : Scans d (' ' :: t'.toList) [(.name, t')] d r :=
    (scans_blank d _).append (scans_word ht' hr)
  refine (scans_word ht ?_).append hb
  rintro c hc
  obtain rfl : ' ' = c := by simpa using hc
  decide

private theorem scans_infix {t : String} (ht : t ∈ Mark.infixes) {d : Nat} {r : List Char}
    (hr : ∀ c ∈ r.head?, c = ' ' ∨ c = '\n') :
    Scans d t.toList (Mark.operator t).tokens d r := by
  have hn : ∀ c ∈ r.head?, Text.isNameChar c = false := by
    intro c hc
    rcases hr c hc with rfl | rfl <;> decide
  have hnot : IsWord "not" := .of_toList 'n' ['o', 't'] rfl (by decide)
  have hin : IsWord "in" := .of_toList 'i' ['n'] rfl (by decide)
  have his : IsWord "is" := .of_toList 'i' ['s'] rfl (by decide)
  have hand : IsWord "and" := .of_toList 'a' ['n', 'd'] rfl (by decide)
  have hor : IsWord "or" := .of_toList 'o' ['r'] rfl (by decide)
  rcases infix_cases t ht with ⟨hw, he⟩ | rfl | rfl | ⟨hp, he⟩
  · rw [he]
    simp only [List.mem_cons, List.not_mem_nil, or_false] at hw
    rcases hw with rfl | rfl | rfl | rfl | rfl
    · exact scans_word hnot hn
    · exact scans_word hand hn
    · exact scans_word hor hn
    · exact scans_word his hn
    · exact scans_word hin hn
  · exact scans_two_words his hnot hn
  · exact scans_two_words hnot hin hn
  · rw [he]
    exact scans_of_isPlainOperator hp hr

private theorem scans_sign {t : String} (ht : t ∈ Mark.signs) {d : Nat} {r : List Char}
    (hr : ∀ c ∈ r.head?, c ≠ '=' ∧ c ≠ '>') : Scans d t.toList [(.op, t)] d r := by
  have hone (c : Char) (hc : c ∈ ['~', '+', '-']) : Scans d [c] [(.op, String.ofList [c])] d r := by
    have hplain : ∀ c ∈ ['~', '+', '-'], isPlainOperator.isPlain c = true ∧ c ∈ operators₁ :=
      forall_mem_of_all (by decide)
    refine scans_of_isPlain (hplain c hc).1 (operatorLength?_one (hplain c hc).2 fun c' hc' => ?_)
    obtain ⟨h₁, h₂⟩ := hr c' hc'
    simp only [List.mem_cons, List.not_mem_nil, or_false] at hc
    rcases hc with rfl | rfl | rfl <;> simp [endsOperator, operators₂_toList, h₁, h₂]
  simp only [Mark.signs, List.mem_cons, List.not_mem_nil, or_false] at ht
  rcases ht with rfl | rfl | rfl
  · exact hone '~' (by decide)
  · exact hone '+' (by decide)
  · exact hone '-' (by decide)

/-- A bracket is one token, and counts. -/
theorem scans_bracket {c : Char} (hc : c ∈ ['(', ')', '[', ']']) {d d' : Nat} {r : List Char}
    (hd : depthAfter? c d = some d') : Scans d [c] [(.op, String.ofList [c])] d' r := by
  have hbracket : ∀ c ∈ ['(', ')', '[', ']'], c ∈ operatorStarts ∧ c ≠ '.' ∧ c ∈ operators₁ :=
    forall_mem_of_all (by decide)
  have hc' := hbracket c hc
  refine scans_operator hc'.1 (fun he => absurd he hc'.2.1) (operatorLength?_one hc'.2.2 ?_) hd
  intro c' _
  simp only [List.mem_cons, List.not_mem_nil, or_false] at hc
  rcases hc with rfl | rfl | rfl | rfl <;> simp [endsOperator, operators₂_toList]

private theorem scans_punctuation {c : Char} (hc : c ∈ [',', ':', '.']) {d : Nat} {r : List Char}
    (hr : ∀ c' ∈ r.head?, (c = ':' → c' ≠ '=') ∧ (c = '.' → c'.isDigit = false)) :
    Scans d [c] [(.op, String.ofList [c])] d r := by
  have hmark : ∀ c ∈ [',', ':', '.'], c ∈ operatorStarts ∧ c ∈ operators₁ :=
    forall_mem_of_all (by decide)
  have hc' := hmark c hc
  refine scans_operator hc'.1 (fun he c' h => (hr c' h).2 he)
    (operatorLength?_one hc'.2 fun c' h => ?_) ?_
  · have hr := hr c' h
    simp only [List.mem_cons, List.not_mem_nil, or_false] at hc
    rcases hc with rfl | rfl | rfl <;> simp_all [endsOperator, operators₂_toList]
  · simp only [List.mem_cons, List.not_mem_nil, or_false] at hc
    rcases hc with rfl | rfl | rfl <;> rfl

private theorem scans_plain {t : String} (ht : (Mark.plain t).IsSound) {d : Nat} {r : List Char}
    (he : ∀ c ∈ r.head?, (Mark.plain t).endsBefore c = true) :
    Scans d t.toList (Mark.plain t).tokens d r := by
  rcases ht with ht | ht
  · simp only [List.mem_cons, List.not_mem_nil, or_false] at ht
    rcases ht with rfl | rfl | rfl | rfl | rfl
    · exact scans_blank d r
    · have hcomma : Scans d [','] [(.op, ",")] d ([' '] ++ r) :=
        scans_punctuation (by decide) fun c' _ => ⟨(by rintro ⟨⟩), (by rintro ⟨⟩)⟩
      exact hcomma.append (scans_blank d r)
    · refine scans_punctuation (by decide) fun c' hc => ⟨fun _ => ?_, (by rintro ⟨⟩)⟩
      rintro rfl
      exact absurd (he _ hc) (by decide)
    · refine scans_punctuation (by decide) fun c' hc => ⟨(by rintro ⟨⟩), fun _ => ?_⟩
      have := he c' hc
      rw [Mark.endsBefore, if_neg (by decide)] at this
      simpa using this
    · exact scans_punctuation (by decide) fun c' _ => ⟨(by rintro ⟨⟩), (by rintro ⟨⟩)⟩
  · rw [tokens_plain ht]
    refine scans_word ht fun c hc => ?_
    have := he c hc
    rw [Mark.endsBefore, if_pos ht.head] at this
    simpa using this

private theorem scans_literal {t : String} (ht : (Mark.literal t).IsSound) {d : Nat} {r : List Char}
    (he : ∀ c ∈ r.head?, (Mark.literal t).endsBefore c = true) :
    Scans d t.toList (Mark.literal t).tokens d r := by
  rcases ht with ht | ⟨s, rfl⟩
  · obtain ⟨c, cs, hl, hc, -⟩ := id ht
    have hq : t.toList.head? ≠ some '\'' := by
      rw [hl]
      rintro hc'
      obtain rfl : c = '\'' := by simpa using hc'
      exact absurd hc (by decide)
    rw [Mark.tokens, if_neg hq]
    exact scans_word ht fun c hc => by simpa [Mark.endsBefore] using he c hc
  · rw [Mark.tokens, if_pos (by simp [Literal.quote])]
    exact scans_quote s

private theorem scans_mark {m : Mark} (hs : m.IsSound) {d : Nat} {r : List Char}
    (he : ∀ c ∈ r.head?, m.endsBefore c = true) (hi : m.isInner = true → 0 < d) :
    Scans d m.kept m.tokens (m.depthAfter d) r := by
  cases m with
  | plain t => exact scans_plain hs he
  | keyword t => exact scans_word hs fun c hc => by simpa [Mark.endsBefore] using he c hc
  | operator t =>
    by_cases ht : t ∈ Mark.signs
    · have htokens : (Mark.operator t).tokens = [(.op, t)] := by
        clear he hs hi
        revert t
        decide
      rw [htokens]
      refine scans_sign ht fun c hc => ?_
      have := he c hc
      simp only [Mark.endsBefore, Bool.or_eq_true, Bool.and_eq_true, beq_iff_eq, bne_iff_ne] at this
      rcases this with (rfl | rfl) | ⟨⟨-, h₁⟩, h₂⟩
      · decide
      · decide
      · exact ⟨h₁, h₂⟩
    · refine scans_infix (hs.resolve_left ht) fun c hc => ?_
      simpa [Mark.endsBefore, ht] using he c hc
  | number t => exact scans_number hs he
  | literal t => exact scans_literal hs he
  | name t => exact scans_word hs fun c hc => by simpa [Mark.endsBefore] using he c hc
  | feature t => exact scans_word hs fun c hc => by simpa [Mark.endsBefore] using he c hc
  | predicate t => exact scans_word hs fun c hc => by simpa [Mark.endsBefore] using he c hc
  | comment t => exact hs.elim
  | openParen => exact scans_bracket (by decide) rfl
  | closeParen => exact scans_bracket (by decide) (if_neg (Nat.pos_iff_ne_zero.1 (hi rfl)))
  | openBracket => exact scans_bracket (by decide) rfl
  | closeBracket => exact scans_bracket (by decide) (if_neg (Nat.pos_iff_ne_zero.1 (hi rfl)))
  | lineBreak n => exact scans_lineBreak (hi rfl) n r

/-- Scanning legible marks yields the tokens of each of them. -/
theorem scans_of_legible {ms : List Mark} {d d' : Nat} {r : List Char}
    (h : Legible d ms d' r) : Scans d (Style.kept.text ms) (tokensOf ms) d' r := by
  induction ms generalizing d with
  | nil => exact (show d = d' from h) ▸ .nil d r
  | cons m ms ih =>
    obtain ⟨hs, he, hi, h⟩ := h
    exact (scans_mark hs he hi).append (ih h)

end Lexer
end ValidUsage
