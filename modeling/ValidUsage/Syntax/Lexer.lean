import ValidUsage.Syntax.Token
import ValidUsage.Text.Lines

/-!
# From text to tokens

The text is read in steps. A step takes the blanks, the comment or the token at the front, after the
indentation if it stands at the start of a line, and leaves a shorter text; so `tokenize` ends on
every text. Blank lines and lines with nothing but a comment yield no token. Inside of brackets the
ends of lines do not count, and a backslash joins a line with the next one.
-/

namespace ValidUsage.Lexer

/-- What is known between two steps. -/
structure State where
  /-- The position of the next character. -/
  pos : Pos
  /-- The number of open brackets. -/
  depth : Nat
  /-- The widths of the open indentations, the innermost first. -/
  indents : List Nat
  /-- Whether the last token belongs to a line that has not ended. -/
  content : Bool
  /-- Whether the next character starts a line. -/
  lineStart : Bool
  deriving DecidableEq, Repr

/-- The state before the first character. -/
def State.init : State := ⟨⟨1, 1⟩, 0, [], false, true⟩

/-- What a step takes off the front of a text. -/
structure Step (s : List Char) where
  /-- The tokens that the step yields. -/
  tokens : List Token
  /-- What is known afterwards. -/
  state : State
  /-- The text that is left. -/
  rest : List Char
  /-- A step takes at least one character. -/
  shorter : rest.length < s.length

/-- The position after some characters of the same line. -/
def advance (p : Pos) (n : Nat) : Pos := ⟨p.line, p.col + n⟩

/-- The position at the start of the next line. -/
def nextLine (p : Pos) : Pos := ⟨p.line + 1, 1⟩

/-- The width of the indentation at the front of a text, counted on from `width`, and the text after
it. A tab reaches to the next multiple of eight and a form feed starts over. -/
def indentation (width : Nat) : List Char → Nat × List Char
  | ' ' :: r => indentation (width + 1) r
  | '\t' :: r => indentation ((width / 8 + 1) * 8) r
  | '\x0c' :: r => indentation 0 r
  | r => (width, r)

/-- The indentation is no longer than the text. -/
theorem length_indentation (width : Nat) (s : List Char) :
    (indentation width s).2.length ≤ s.length := by
  fun_induction indentation width s <;> simp_all <;> omega

/-- The string after its opening quote: its text up to and with the closing quote, and the rest. A
backslash takes the next character with it; the end of the line leaves the string open. -/
def closeQuote? (quote : Char) : List Char → Option (List Char × List Char)
  | [] => none
  | '\\' :: c :: r => (closeQuote? quote r).map fun (t, r') => ('\\' :: c :: t, r')
  | c :: r =>
    if c = '\n' then none
    else if c = quote then some ([c], r)
    else (closeQuote? quote r).map fun (t, r') => (c :: t, r')

/-- A string and what follows it make up the text. -/
theorem closeQuote?_append {quote : Char} {s t r : List Char}
    (h : closeQuote? quote s = some (t, r)) : t ++ r = s := by
  fun_induction closeQuote? quote s generalizing t with
  | case1 => simp at h
  | case2 c r' ih =>
    obtain ⟨⟨t', r''⟩, ht, he⟩ := Option.map_eq_some_iff.1 h
    simp only [Prod.mk.injEq] at he
    obtain ⟨rfl, rfl⟩ := he
    simp [ih ht]
  | case3 => simp at h
  | case4 => simp only [Option.some.injEq, Prod.mk.injEq] at h; simp [← h.1, ← h.2]
  | case5 c r' _ _ _ ih =>
    obtain ⟨⟨t', r''⟩, ht, he⟩ := Option.map_eq_some_iff.1 h
    simp only [Prod.mk.injEq] at he
    obtain ⟨rfl, rfl⟩ := he
    simp [ih ht]

/-- A digit of a number in any base. -/
def isHexDigit (c : Char) : Bool :=
  c.isDigit || ('a' ≤ c && c ≤ 'f') || ('A' ≤ c && c ≤ 'F')

/-- A decimal digit, or an underscore between digits. -/
def isDigitOrBar (c : Char) : Bool := c.isDigit || c == '_'

/-- The text of a number at the front of a text: a base and its digits, or decimal digits with an
optional fraction and an optional exponent. -/
def numberText (s : List Char) : List Char :=
  match s with
  | '0' :: b :: r =>
    if b ∈ ['x', 'X', 'o', 'O', 'b', 'B'] then
      '0' :: b :: r.takeWhile fun c => isHexDigit c || c == '_'
    else decimal s
  | _ => decimal s
where
  /-- Decimal digits with what may follow them. -/
  decimal (s : List Char) : List Char :=
    let whole := s.takeWhile isDigitOrBar
    let s := s.dropWhile isDigitOrBar
    let (fraction, s) := match s with
      | '.' :: r => ('.' :: r.takeWhile isDigitOrBar, r.dropWhile isDigitOrBar)
      | _ => ([], s)
    whole ++ fraction ++ exponent s
  /-- An exponent, or nothing. -/
  exponent (s : List Char) : List Char :=
    match s with
    | e :: r =>
      if e = 'e' ∨ e = 'E' then
        match r with
        | sign :: r' =>
          if sign = '+' ∨ sign = '-' then e :: sign :: r'.takeWhile isDigitOrBar
          else e :: r.takeWhile isDigitOrBar
        | [] => [e]
      else []
    | [] => []

/-- Operators of three characters. -/
def operators₃ : List String := ["**=", "//=", ">>=", "<<="]

/-- Operators of two characters. -/
def operators₂ : List String :=
  ["**", "//", "<<", ">>", "<=", ">=", "==", "!=", "->", ":=", "+=", "-=", "*=", "/=", "%=", "&=",
   "|=", "^=", "@="]

/-- Operators of one character. -/
def operators₁ : List Char := "+-*/%@|^&~<>()[]{},:.;=".toList

/-- The length of the operator at the front of a text: the longest that is one. -/
def operatorLength? (s : List Char) : Option Nat :=
  if operators₃.contains (String.ofList (s.take 3)) then some 3
  else if operators₂.contains (String.ofList (s.take 2)) then some 2
  else match s with
    | c :: _ => if operators₁.contains c then some 1 else none
    | [] => none

/-- The number of open brackets after an operator that starts with a character; none if it closes a
bracket that is not open. -/
def depthAfter? (c : Char) (depth : Nat) : Option Nat :=
  if c = '(' ∨ c = '[' ∨ c = '{' then some (depth + 1)
  else if c = ')' ∨ c = ']' ∨ c = '}' then if depth = 0 then none else some (depth - 1)
  else some depth

/-- A fault at a position. -/
def fail {α : Type} (fault : SyntaxFault) (pos : Pos) : Except SyntaxError α := .error ⟨fault, pos⟩

/-- The step that takes one token with `n + 1` characters. -/
def take (st : State) (kind : TokenKind) (c : Char) (cs : List Char) (n : Nat) :
    Step (c :: cs) where
  tokens := [⟨kind, String.ofList (c :: cs.take n), st.pos⟩]
  state := { st with pos := advance st.pos (1 + (cs.take n).length), content := true }
  rest := cs.drop n
  shorter := by
    simp only [List.length_drop, List.length_cons]
    omega

/-- The step that takes a number. -/
def number (st : State) (c : Char) (cs : List Char) : Except SyntaxError (Step (c :: cs)) :=
  let n := (numberText (c :: cs)).length - 1
  match cs.drop n with
  | c' :: _ =>
    if Text.isNameStart c' then fail .openNumber st.pos else .ok (take st .number c cs n)
  | [] => .ok (take st .number c cs n)

/-- The step that takes an operator. -/
def operator (st : State) (c : Char) (cs : List Char) : Except SyntaxError (Step (c :: cs)) :=
  match operatorLength? (c :: cs) with
  | none => fail (.character c) st.pos
  | some n =>
    match depthAfter? c st.depth with
    | none => fail (.unmatched c) st.pos
    | some depth => .ok (take { st with depth } .op c cs (n - 1))

/-- The step at a character that does not stand in an indentation. -/
def token (st : State) (c : Char) (cs : List Char) : Except SyntaxError (Step (c :: cs)) :=
  if c = '\n' then
    let ends := st.depth = 0 ∧ st.content
    .ok {
      tokens := if ends then [⟨.newline, "", st.pos⟩] else []
      state := { st with
        pos := nextLine st.pos
        content := if ends then false else st.content
        lineStart := true }
      rest := cs
      shorter := Text.length_lt_cons c cs }
  else if c = ' ' ∨ c = '\t' ∨ c = '\r' ∨ c = '\x0c' then
    .ok ⟨[], { st with pos := advance st.pos 1 }, cs, Text.length_lt_cons c cs⟩
  else if c = '#' then
    .ok ⟨[], { st with pos := advance st.pos (1 + (cs.takeWhile (· ≠ '\n')).length) },
      cs.dropWhile (· ≠ '\n'), by
        have := (List.dropWhile_suffix (l := cs) (fun c => decide (c ≠ '\n'))).length_le
        simp at this ⊢
        omega⟩
  else if c = '\\' then
    match cs with
    | '\n' :: r => .ok ⟨[], { st with pos := nextLine st.pos }, r, by
        simp only [List.length_cons]
        omega⟩
    | '\r' :: '\n' :: r => .ok ⟨[], { st with pos := nextLine st.pos }, r, by
        simp only [List.length_cons]
        omega⟩
    | _ => fail .afterBackslash st.pos
  else if c = '\'' ∨ c = '"' then
    match closeQuote? c cs with
    | none => fail .openString st.pos
    | some (t, _) => .ok (take st .str c cs t.length)
  else if c.isDigit then number st c cs
  else if c = '.' ∧ (cs.head?.any Char.isDigit) then number st c cs
  else if Text.isNameStart c then .ok (take st .name c cs (cs.takeWhile Text.isNameChar).length)
  else operator st c cs

/-- The layout tokens of a line with an indentation, and the indentations that are open after them.
A deeper line opens one; a shallower line closes those that are deeper than it. -/
def layout (indents : List Nat) (width : Nat) (pos : Pos) :
    Except SyntaxError (List Token × List Nat) :=
  let current := indents.headD 0
  if current < width then .ok ([⟨.indent, "", pos⟩], width :: indents)
  else
    let closed := indents.takeWhile (width < ·)
    let left := indents.dropWhile (width < ·)
    if left.headD 0 = width then .ok (closed.map fun _ => ⟨.dedent, "", pos⟩, left)
    else fail .unindent pos

/-- Whether a line has nothing but blanks and a comment, by what follows its indentation. -/
def isBlankLine : List Char → Bool
  | [] => true
  | c :: _ => c == '#' || c == '\n' || c == '\r'

/-- One step. -/
def step (st : State) (c : Char) (cs : List Char) : Except SyntaxError (Step (c :: cs)) :=
  if st.lineStart ∧ st.depth = 0 then
    have hw := length_indentation 0 (c :: cs)
    let width := (indentation 0 (c :: cs)).1
    match hr : (indentation 0 (c :: cs)).2 with
    | [] => .ok ⟨[], { st with pos := advance st.pos (c :: cs).length }, [], by simp⟩
    | c' :: cs' =>
      let pos := advance st.pos ((c :: cs).length - (c' :: cs').length)
      if isBlankLine (c' :: cs') then
        match ht : (c' :: cs').dropWhile (· ≠ '\n') with
        | [] => .ok ⟨[], { st with pos := advance st.pos (c :: cs).length }, [], by simp⟩
        | _ :: r => .ok ⟨[], { st with pos := nextLine st.pos }, r, by
            have := (List.dropWhile_suffix (l := c' :: cs') (fun c => decide (c ≠ '\n'))).length_le
            rw [ht] at this
            rw [hr] at hw
            simp at this hw ⊢
            omega⟩
      else do
        let (tokens, indents) ← layout st.indents width pos
        let content := if tokens.isEmpty then st.content else false
        let ⟨ts, st', r, h⟩ ← token { st with pos, indents, content, lineStart := false } c' cs'
        return ⟨tokens ++ ts, st', r, by rw [hr] at hw; omega⟩
  else token { st with lineStart := false } c cs

/-- The tokens that end a text. -/
def finish (st : State) : Except SyntaxError (List Token) :=
  if 0 < st.depth then fail .openBracket st.pos
  else
    let newline : List Token := if st.content then [⟨.newline, "", st.pos⟩] else []
    .ok (newline ++ st.indents.map (fun _ => ⟨.dedent, "", st.pos⟩) ++ [⟨.endMarker, "", st.pos⟩])

/-- The tokens of a text that begins in a state. -/
def scan (st : State) : List Char → Except SyntaxError (List Token)
  | [] => finish st
  | c :: cs => do
    let ⟨ts, st', r, _⟩ ← step st c cs
    let rest ← scan st' r
    return ts ++ rest
termination_by s => s.length
decreasing_by assumption

end ValidUsage.Lexer

namespace ValidUsage

/-- The tokens of a text. -/
def tokenize (s : List Char) : Except SyntaxError (List Token) := Lexer.scan .init s

end ValidUsage
