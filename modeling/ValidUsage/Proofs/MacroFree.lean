import ValidUsage.Expansion
import ValidUsage.Proofs.ReadComments
import ValidUsage.Proofs.ScanSound
import ValidUsage.Proofs.ScanWithin

/-!
# Texts without references to macros

Expansion and reading each have their own idea of where strings, comments and names are. Where the
comments of a text hold no quotes and carriage returns only end lines, both are that of one scanner,
which knows of a character only where it stands. A text in which that scanner meets no reference
outside of strings and comments has no token for one.
-/

namespace ValidUsage
namespace Expansion

/-- Where a character stands. -/
inductive Mode where
  /-- Outside of strings and comments, behind a character that may continue a name or not. -/
  | code (inName : Bool)
  /-- In a comment. -/
  | comment
  /-- In a string, behind a backslash or not. -/
  | string (quote : Char) (escaped : Bool)
  deriving DecidableEq, Repr

/-- Whether a character starts a string. -/
def isQuote (c : Char) : Bool := c == '\'' || c == '"'

namespace Mode

/-- Where the next character stands. -/
def next : Mode → Char → Mode
  | code _, c =>
    if isQuote c then string c false
    else if c = '#' then comment
    else code (Text.isNameChar c)
  | comment, c => if c = '\n' then code false else comment
  | string q true, _ => string q false
  | string q false, c =>
    if c = '\\' then string q true else if c = q then code false else string q false

/-- Where the character behind a text stands. -/
def after (m : Mode) (s : List Char) : Mode := s.foldl next m

end Mode

/-- Whether a text starts with the word that refers to a macro. -/
def startsMacro (s : List Char) : Bool :=
  s.takeWhile Text.isNameChar == Predicate.textMacro.name.toList

/-- Whether a text does not start with a carriage return, or with one that ends a line. -/
def returnsAtEnd : List Char → Bool
  | '\r' :: c :: _ => c == '\n'
  | _ => true

/-- Whether all of a text stands where expansion and reading take it to: outside of strings and
comments a word that refers to a macro satisfies `word`, and comments satisfy `note`. -/
def scans (word note : List Char → Bool) : Mode → List Char → Bool
  | _, [] => true
  | m, c :: r =>
    (match m with
      | .code inName => (inName || !startsMacro (c :: r) || word (c :: r)) && returnsAtEnd (c :: r)
      | .comment => !isQuote c && note (c :: r)
      | .string _ _ => true) && scans word note (m.next c) r

/-- Whether nothing of a text refers to a macro. -/
def isFree : Mode → List Char → Bool := scans (fun _ => false) fun _ => true

section Free

variable {inName : Bool} {c : Char} {r u : List Char}

/-- In code a text is free if no reference and no lone carriage return starts it and the rest is
free. -/
theorem isFree_code : isFree (.code inName) (c :: r) = true ↔
    (inName = true ∨ startsMacro (c :: r) = false) ∧ returnsAtEnd (c :: r) = true ∧
      isFree ((Mode.code inName).next c) r = true := by
  rw [isFree, scans, Bool.and_eq_true, Bool.and_eq_true, Bool.or_false, Bool.or_eq_true,
    Bool.not_eq_true', and_assoc]

/-- In a comment a text is free if it starts with no quote and the rest is free. -/
theorem isFree_comment : isFree .comment (c :: r) = true ↔
    isQuote c = false ∧ isFree (Mode.comment.next c) r = true := by
  rw [isFree, scans, Bool.and_eq_true, Bool.and_true, Bool.not_eq_true']

/-- In a string a text is free if the rest is. -/
theorem isFree_string {q : Char} {escaped : Bool} :
    isFree (.string q escaped) (c :: r) = isFree ((Mode.string q escaped).next c) r := by
  rw [isFree, scans, Bool.true_and]

/-- Whether a character leaves the scanner outside of strings and comments. -/
def isCode (c : Char) : Bool := !isQuote c && c != '#'

/-- A character of code is followed by code. -/
theorem next_code (h : isCode c = true) :
    (Mode.code inName).next c = .code (Text.isNameChar c) := by
  simp only [isCode, Bool.and_eq_true, Bool.not_eq_true', bne_iff_ne] at h
  simp [Mode.next, h.1, h.2]

/-- Behind a name nothing depends on it, but that no name starts. -/
theorem isFree_of_code (h : isFree (.code inName) r = true) (hr : startsMacro r = false) :
    isFree (.code false) r = true := by
  cases r with
  | nil => rfl
  | cons c r => exact isFree_code.2 ⟨.inr hr, (isFree_code.1 h).2⟩

private theorem isFree_append_code (hu : ∀ c ∈ u, isCode c = true)
    (h : isFree (.code inName) (u ++ r) = true) : ∃ inName', isFree (.code inName') r = true := by
  induction u generalizing inName with
  | nil => exact ⟨inName, h⟩
  | cons c u ih =>
    obtain ⟨hc, hu⟩ := List.forall_mem_cons.1 hu
    have h := (isFree_code.1 h).2.2
    rw [next_code hc] at h
    exact ih hu h

/-- What is left behind characters that are in no name. -/
theorem isFree_append_plain (hu : ∀ c ∈ u, isCode c = true ∧ Text.isNameChar c = false)
    (h : isFree (.code false) (u ++ r) = true) : isFree (.code false) r = true := by
  induction u with
  | nil => exact h
  | cons c u ih =>
    obtain ⟨hc, hu⟩ := List.forall_mem_cons.1 hu
    have h := (isFree_code.1 h).2.2
    rw [next_code hc.1, hc.2] at h
    exact ih hu h

private theorem startsMacro_of_head (h : ∀ c ∈ r.head?, Text.isNameStart c = false) :
    startsMacro r = false := by
  cases r with
  | nil => rfl
  | cons c r =>
    have hc := h c rfl
    rw [startsMacro, ← Bool.not_eq_true, beq_iff_eq]
    intro he
    rw [List.takeWhile_cons] at he
    split at he
    · obtain rfl : c = 'm' := (List.cons.inj he).1
      exact absurd hc (by decide)
    · exact absurd he nofun

/-- A comment ends with its line. -/
theorem isFree_dropWhile_comment (h : isFree .comment r = true) :
    isFree (.code false) (r.dropWhile (· ≠ '\n')) = true := by
  induction r with
  | nil => rfl
  | cons c r ih =>
    have h := (isFree_comment.1 h).2
    by_cases hc : c = '\n'
    · subst hc
      rw [List.dropWhile_cons, if_neg (by decide)]
      refine isFree_code.2 ⟨.inr (startsMacro_of_head fun c hc => ?_), rfl, h⟩
      obtain rfl : '\n' = c := by simpa using hc
      decide
    · rw [Mode.next, if_neg hc] at h
      rw [List.dropWhile_cons, if_pos (by simp [hc])]
      exact ih h

/-- A string ends with its closing quote. -/
theorem isFree_of_closeQuote? {q : Char} {s t : List Char}
    (hs : Lexer.closeQuote? q s = some (t, r)) (hq : isQuote q = true)
    (h : isFree (.string q false) s = true) : isFree (.code false) r = true := by
  fun_induction Lexer.closeQuote? q s generalizing t r with
  | case1 => cases hs
  | case2 c r' ih =>
    obtain ⟨⟨t', r''⟩, ht, he⟩ := Option.map_eq_some_iff.1 hs
    obtain ⟨-, rfl⟩ := Prod.mk.inj he
    exact ih ht (by simpa [isFree_string, Mode.next] using h)
  | case3 => cases hs
  | case4 r' hb hn =>
    obtain ⟨-, rfl⟩ := Prod.mk.inj (Option.some.inj hs)
    have hq' : q ≠ '\\' := by
      rintro rfl
      exact absurd hq (by decide)
    simpa [isFree_string, Mode.next, hq'] using h
  | case5 c r' hb hn hc ih =>
    obtain ⟨⟨t', r''⟩, ht, he⟩ := Option.map_eq_some_iff.1 hs
    obtain ⟨-, rfl⟩ := Prod.mk.inj he
    have hcb : c ≠ '\\' := by
      rintro rfl
      cases r' with
      | nil => cases ht
      | cons c' r' => exact hb c' r' rfl rfl
    rw [isFree_string, Mode.next, if_neg hcb, if_neg hc] at h
    exact ih ht h

end Free

end Expansion

namespace Lexer

open Expansion Paragraph

/-- A token that refers to no macro. -/
def IsPlain (t : Token) : Prop := t.kind = .name → t.text ≠ Predicate.textMacro.name

section Token

variable {st : State} {c : Char} {cs : List Char}

/-- Characters of numbers are code. -/
theorem isCode_of_isNumberChar (h : isNumberChar c = true) : isCode c = true := by
  simp only [isNumberChar, Bool.or_eq_true, List.contains_iff_mem, List.mem_cons,
    List.not_mem_nil, or_false] at h
  rcases h with h | rfl | rfl | rfl
  · have hc := isNeutral_of_isNameChar h
    simp only [isNeutral, List.contains_eq_mem, List.mem_cons, List.not_mem_nil, or_false,
      Bool.not_eq_true', decide_eq_false_iff_not, not_or] at hc
    simp [isCode, isQuote, hc.1, hc.2.1, hc.2.2.1]
  all_goals decide

/-- The text behind a token that is code has no reference, if no word of it goes on. -/
theorem isFree_drop {n : Nat} (hu : ∀ x ∈ c :: cs.take n, isCode x = true)
    (hr : ∀ x ∈ (cs.drop n).head?, Text.isNameStart x = false)
    (hf : isFree (.code false) (c :: cs) = true) : isFree (.code false) (cs.drop n) = true := by
  have hsplit : c :: cs = (c :: cs.take n) ++ cs.drop n := by simp
  rw [hsplit] at hf
  obtain ⟨inName, hf⟩ := isFree_append_code hu hf
  exact isFree_of_code hf (startsMacro_of_head hr)

private theorem isFree_operator {n : Nat} (h : operatorLength? (c :: cs) = some n)
    (hf : isFree (.code false) (c :: cs) = true) :
    isFree (.code false) (cs.drop (n - 1)) = true := by
  have hall : operatorTexts.all (·.all fun c => isCode c && !Text.isNameChar c) = true := by
    decide +kernel
  replace hall : ∀ t ∈ operatorTexts, ∀ c ∈ t, isCode c = true ∧ Text.isNameChar c = false :=
    fun t ht c hc => by simpa using List.all_eq_true.1 (List.all_eq_true.1 hall t ht) c hc
  have hsplit : c :: cs = (c :: cs.take (n - 1)) ++ cs.drop (n - 1) := by simp
  rw [hsplit] at hf
  exact isFree_append_plain (hall _ (operator_mem h).2.2) hf

/-- What stands behind a string is free if it is so from the string on. -/
theorem isFree_string {t r : List Char} (hc : c = '\'' ∨ c = '"')
    (h : closeQuote? c cs = some (t, r)) (hf : isFree (.code false) (c :: cs) = true) :
    isFree (.code false) (cs.drop t.length) = true := by
  have hquote : isQuote c = true := by rcases hc with rfl | rfl <;> decide
  have hdrop : cs.drop t.length = r := by
    rw [← closeQuote?_append h, List.drop_left]
  have hafter := (isFree_code.1 hf).2.2
  rw [Mode.next, if_pos hquote] at hafter
  rw [hdrop]
  exact isFree_of_closeQuote? h hquote hafter

/-- A name ends before a character that is in no name. -/
theorem not_isNameStart_behind (s : List Char) :
    ∀ x ∈ (s.drop (s.takeWhile Text.isNameChar).length).head?, Text.isNameStart x = false := by
  intro x hx
  rw [drop_length_takeWhile, Option.mem_def] at hx
  have hno := List.head?_dropWhile_not Text.isNameChar s
  rw [hx] at hno
  exact Bool.eq_false_iff.2 fun hstart =>
    absurd ((isNameChar_of_isNameStart hstart).symm.trans hno) nofun

/-- The text behind a token has no reference if the text from the token on has none. -/
theorem isFree_lexeme {kind : TokenKind} {n : Nat} (h : Lexeme c cs kind n)
    (hf : isFree (.code false) (c :: cs) = true) : isFree (.code false) (cs.drop n) = true := by
  cases h with
  | str quote closes => exact isFree_string quote closes hf
  | number start length ends =>
    obtain ⟨-, hchars⟩ := @number_chars c cs start
    subst length
    exact isFree_drop (fun x hx => isCode_of_isNumberChar (hchars x hx)) ends hf
  | name start =>
    have hword : ∀ x ∈ c :: cs.takeWhile Text.isNameChar, Text.isNameChar x = true :=
      List.forall_mem_cons.2
        ⟨isNameChar_of_isNameStart start, List.all_eq_true.1 List.all_takeWhile⟩
    refine isFree_drop (fun x hx => isCode_of_isNumberChar ?_) (not_isNameStart_behind cs) hf
    rw [← List.prefix_iff_eq_take.1 (List.takeWhile_prefix Text.isNameChar)] at hx
    rw [isNumberChar, hword x hx, Bool.true_or]
  | op length => exact isFree_operator length hf

/-- A name that stands in front of a text without references refers to no macro. -/
theorem ne_macro_of_isFree (hc : Text.isNameStart c = true)
    (hf : isFree (.code false) (c :: cs) = true) :
    String.ofList (c :: cs.take (cs.takeWhile Text.isNameChar).length) ≠
      Predicate.textMacro.name := by
  have hword : startsMacro (c :: cs) = false :=
    (isFree_code.1 hf).1.resolve_left (by rintro ⟨⟩)
  rw [← List.prefix_iff_eq_take.1 (List.takeWhile_prefix Text.isNameChar)]
  intro he
  rw [startsMacro, List.takeWhile_cons, if_pos (isNameChar_of_isNameStart hc), ← Bool.not_eq_true,
    beq_iff_eq] at hword
  exact hword (by rw [← he, String.toList_ofList])

/-- A step within a line leaves a text without references, and has no token for one. -/
theorem isFree_token {x : Step (c :: cs)} (h : token st c cs = .ok x)
    (hf : isFree (.code false) (c :: cs) = true) :
    isFree (.code false) x.rest = true ∧ ∀ t ∈ x.tokens, IsPlain t := by
  have hafter := (isFree_code.1 hf).2.2
  constructor
  · cases move_token h with
    | @token t u depth tokens kind =>
      obtain ⟨n, hlexeme, hrest, -⟩ :=
        lexeme_of_mem h (by rw [tokens]; exact List.mem_singleton_self t) kind
      exact hrest ▸ isFree_lexeme hlexeme hf
    | newline char ended tokens rest =>
      subst char
      rw [rest]
      exact isFree_append_plain (u := ['\n']) (forall_mem_of_all (by decide)) hf
    | blank char tokens rest =>
      rw [rest]
      refine isFree_append_plain (u := [c]) (List.forall_mem_singleton.2 ?_) hf
      rcases char with rfl | rfl | rfl | rfl <;> decide
    | comment char split inLine ends =>
      subst char
      have hline := isFree_dropWhile_comment hafter
      rwa [split, dropWhile_line_end inLine ends] at hline
    | join char split carriage =>
      subst char
      rw [split] at hf
      rcases carriage with rfl | rfl
      · exact isFree_append_plain (u := ['\\', '\n']) (forall_mem_of_all (by decide)) hf
      · exact isFree_append_plain (u := ['\\', '\r', '\n']) (forall_mem_of_all (by decide)) hf
  · intro t ht hk
    obtain ⟨n, hlexeme, -, he⟩ := lexeme_of_mem h ht (by rw [hk]; rfl)
    rw [hk] at hlexeme
    cases hlexeme with
    | name start =>
      rw [he]
      exact ne_macro_of_isFree start hf

/-- The text behind a blank line, or behind one of a comment. -/
theorem isFree_blankLine {s : List Char} (hb : isBlankLine s = true)
    (hf : isFree (.code false) s = true) :
    isFree (.code false) (s.dropWhile (· ≠ '\n')) = true := by
  cases s with
  | nil => rfl
  | cons c s =>
    obtain ⟨-, hreturn, hafter⟩ := isFree_code.1 hf
    simp only [isBlankLine, Bool.or_eq_true, beq_iff_eq] at hb
    rcases hb with (rfl | rfl) | rfl
    · exact isFree_dropWhile_comment hafter
    · exact hf
    · cases s with
      | nil => rfl
      | cons c' s =>
        obtain rfl : c' = '\n' := by simpa [returnsAtEnd] using hreturn
        exact isFree_append_plain (u := ['\r']) (forall_mem_of_all (by decide)) hf

/-- A step leaves a text without references, and has no token for one. -/
theorem isFree_step {x : Step (c :: cs)} (h : step st c cs = .ok x)
    (hf : isFree (.code false) (c :: cs) = true) :
    isFree (.code false) x.rest = true ∧ ∀ t ∈ x.tokens, IsPlain t := by
  have behind {u r : List Char} (blanks : ∀ c ∈ u, c = ' ' ∨ c = '\t' ∨ c = '\x0c')
      (split : c :: cs = u ++ r) : isFree (.code false) r = true := by
    refine isFree_append_plain (u := u) (fun c hc => ?_) (split ▸ hf)
    rcases blanks c hc with rfl | rfl | rfl <;> decide
  cases turn_step h with
  | @blankLine u line tail start split blanks indent whole ends blank tokens rest =>
    refine ⟨?_, by rw [tokens]; nofun⟩
    have htail := isFree_blankLine blank (behind blanks split)
    rw [dropWhile_line_end whole ends] at htail
    rw [rest]
    cases tail with
    | nil => exact htail
    | cons d r =>
      obtain rfl := ends d rfl
      exact isFree_append_plain (u := ['\n']) (forall_mem_of_all (by decide)) htail
  | textLine start split blanks indent full layout token tokens rest state =>
    obtain ⟨hrest, hplain⟩ := isFree_token token (behind blanks split)
    rw [tokens, rest]
    refine ⟨hrest, fun t ht => (List.mem_append.1 ht).elim (fun ht hk => ?_) (hplain t)⟩
    exact absurd hk (kind_of_mem_layout layout t ht)
  | inside start token => exact isFree_token token hf

/-- The tokens of a text without references are plain. -/
theorem isPlain_scan (s : List Char) (st : State) (hf : isFree (.code false) s = true)
    {ts : List Token} (h : scan st s = .ok ts) : ∀ t ∈ ts, IsPlain t := by
  cases s with
  | nil =>
    rw [scan] at h
    exact fun t ht hk => absurd hk (kind_of_mem_finish h t ht)
  | cons c cs =>
    rw [scan_step] at h
    obtain ⟨x, hx, h⟩ := Parser.ok_of_bind h
    obtain ⟨rest, hrest, rfl⟩ := ok_of_map h
    obtain ⟨hleft, hplain⟩ := isFree_step hx hf
    have := x.shorter
    exact fun t ht => (List.mem_append.1 ht).elim (hplain t)
      (isPlain_scan x.rest x.state hleft hrest t)
termination_by s.length

end Token

end Lexer

/-- The statements that a text without references writes do not name what refers to macros. -/
theorem hasNames_of_isFree {s : List Char} (hf : Expansion.isFree (.code false) s = true)
    {b : Block} (h : parse s = .ok b) :
    b.hasNames (· != Predicate.textMacro.name) = true := by
  obtain ⟨ts, hts, hb⟩ := Parser.ok_of_bind h
  have hplain := Lexer.isPlain_scan s .init hf hts
  have hself : Parser.Commented (· != Predicate.textMacro.name) true ts ts :=
    .refl fun t ht hk => by simpa using hplain t ht hk
  obtain ⟨b', -, hsame⟩ := Parser.ofTokens_commented hself hb
  exact hsame.names

end ValidUsage
