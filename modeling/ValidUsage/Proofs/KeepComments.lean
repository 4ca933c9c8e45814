import ValidUsage.Layout.RoundTrip
import ValidUsage.Proofs.ScanLines
import ValidUsage.Proofs.Search

/-!
# Keeping the comments of a layout

In the source text of a block, a line outside of brackets that starts with a hash sign is a comment,
and every other one is none: the texts of comments and of strings neither open brackets nor end a
line. So keeping the comments respells the comments and leaves everything else as it is.
-/

namespace ValidUsage
namespace Paragraph

/-- The text from the start of a line on with its comments kept, where `depth` brackets are open. -/
def keepFrom (depth : Nat) (s : List Char) : List Char :=
  Text.join ['\n'] (keepCommentLines depth (Text.splitOn '\n' s))

/-- What follows a line, from its end on, with its comments kept. -/
def keepRest (depth : Nat) : List Char → List Char
  | [] => []
  | c :: s => c :: keepFrom depth s

/-- Whether a text is empty or starts with the end of a line. -/
def EndsLine (r : List Char) : Prop := ∀ c ∈ r.head?, c = '\n'

/-- Keeping comments loses no lines. -/
theorem keepCommentLines_ne_nil (d : Nat) {lines : List (List Char)} (h : lines ≠ []) :
    keepCommentLines d lines ≠ [] := by
  obtain ⟨line, lines, rfl⟩ := List.exists_cons_of_ne_nil h
  unfold keepCommentLines
  split <;> simp

private theorem keepFrom_append {d d' : Nat} {u k r : List Char} (hu : '\n' ∉ u) (hr : EndsLine r)
    (h : ∀ lines, keepCommentLines d (u :: lines) = k :: keepCommentLines d' lines) :
    keepFrom d (u ++ r) = k ++ keepRest d' r := by
  cases r with
  | nil =>
    rw [List.append_nil, keepFrom, Text.splitOn_of_notMem hu, h]
    simp [keepCommentLines, keepRest, Text.join, List.intercalate]
  | cons c s =>
    obtain rfl : c = '\n' := hr c rfl
    have hne := keepCommentLines_ne_nil d' (Text.splitOn_ne_nil '\n' s)
    rw [keepFrom, Text.splitOn_append_cons, Text.splitOn_of_notMem hu, List.singleton_append, h,
      Text.join_cons hne, List.append_assoc]
    rfl

private theorem keepFrom_line {d : Nat} {u r : List Char} (hu : '\n' ∉ u) (hr : EndsLine r)
    (hc : d = 0 → keepComment? u = none) :
    keepFrom d (u ++ r) = u ++ keepRest (bracketDepth none d u) r := by
  refine keepFrom_append hu hr fun lines => ?_
  cases d with
  | zero => simp [keepCommentLines, hc rfl]
  | succ d => simp [keepCommentLines]

private theorem keepFrom_comment {u k r : List Char} (hu : '\n' ∉ u) (hr : EndsLine r)
    (hc : keepComment? u = some k) : keepFrom 0 (u ++ r) = k ++ keepRest 0 r :=
  keepFrom_append hu hr fun lines => by simp [keepCommentLines, hc]

/-! ## Brackets -/

/-- Whether a character neither opens nor closes anything, and ends no line. -/
def isNeutral (c : Char) : Bool :=
  !(['\'', '"', '#', '(', '[', '{', ')', ']', '}', '\n'].contains c)

/-- A character that is neither a bracket nor a quote nor a hash does not count. -/
theorem bracketDepth_cons {c : Char} (h : isNeutral c = true) (d : Nat) (s : List Char) :
    bracketDepth none d (c :: s) = bracketDepth none d s := by
  simp only [isNeutral, List.contains_eq_mem, List.mem_cons, List.not_mem_nil, or_false,
    Bool.not_eq_true', decide_eq_false_iff_not, not_or] at h
  obtain ⟨h₁, h₂, h₃, h₄, h₅, h₆, h₇, h₈, h₉, -⟩ := h
  rw [bracketDepth]
  simp only [h₁, h₂, h₃, h₄, h₅, h₆, h₇, h₈, h₉, or_self, if_false]

/-- Nor do several of them. -/
theorem bracketDepth_append {s : List Char} (h : ∀ c ∈ s, isNeutral c = true) (d : Nat)
    (r : List Char) : bracketDepth none d (s ++ r) = bracketDepth none d r := by
  induction s with
  | nil => rfl
  | cons c s ih =>
    rw [List.cons_append, bracketDepth_cons (h c List.mem_cons_self)]
    exact ih fun c hc => h c (List.mem_cons_of_mem _ hc)

/-- In a string no character counts but its quote and the backslash. -/
theorem bracketDepth_quoted {q c : Char} (hb : c ≠ '\\') (hq : c ≠ q) (d : Nat) (r : List Char) :
    bracketDepth (some q) d (c :: r) = bracketDepth (some q) d r := by
  rw [bracketDepth.eq_def]
  simp only [hb, hq, if_false]

private theorem bracketDepth_escapeChar (c : Char) (d : Nat) (r : List Char) :
    bracketDepth (some '\'') d (Literal.escapeChar c ++ r) = bracketDepth (some '\'') d r := by
  unfold Literal.escapeChar
  repeat' split
  all_goals first
    | exact bracketDepth_quoted (by assumption) (by assumption) d r
    | simp [bracketDepth]

private theorem bracketDepth_quote (s : String) (d : Nat) (r : List Char) :
    bracketDepth none d ((Literal.quote s).toList ++ r) = bracketDepth none d r := by
  have hs (s : List Char) : bracketDepth (some '\'') d (Literal.escape s ++ '\'' :: r) =
      bracketDepth none d r := by
    induction s with
    | nil =>
      show bracketDepth (some '\'') d ('\'' :: r) = _
      rw [bracketDepth.eq_def]
      simp
    | cons c s ih =>
      show bracketDepth (some '\'') d (Literal.escapeChar c ++ Literal.escape s ++ '\'' :: r) = _
      rw [List.append_assoc, bracketDepth_escapeChar, ih]
  rw [Literal.quote, String.toList_ofList]
  show bracketDepth (some '\'') d (Literal.escape s.toList ++ ['\''] ++ r) = _
  rw [List.append_assoc]
  exact hs s.toList

/-- Characters of names do not count. -/
theorem isNeutral_of_isNameChar {c : Char} (h : Text.isNameChar c = true) : isNeutral c = true := by
  rw [isNeutral, Bool.not_eq_true', ← Bool.not_eq_true, List.contains_iff_mem]
  intro hm
  have hall : ∀ c ∈ ['\'', '"', '#', '(', '[', '{', ')', ']', '}', '\n'],
      Text.isNameChar c = false := forall_mem_of_all (by decide)
  simp [hall c hm] at h

private theorem isNeutral_of_isWord {t : String} (ht : IsWord t) :
    ∀ c ∈ t.toList, isNeutral c = true :=
  fun c hc => isNeutral_of_isNameChar (ht.isNameChar c hc)

/-- A text with escapes stands on one line. -/
theorem not_mem_escape (s : List Char) : '\n' ∉ Literal.escape s := by
  intro h
  obtain ⟨c, -, hc⟩ := List.mem_flatMap.1 h
  unfold Literal.escapeChar at hc
  repeat' split at hc
  all_goals first
    | exact absurd hc (by decide)
    | rename_i h _ _ _
      exact h (List.mem_singleton.1 hc).symm

end Paragraph

namespace Mark

open Paragraph

/-- Whether a mark neither is a comment nor ends a line. -/
def isInLine : Mark → Bool
  | comment _ | lineBreak _ => false
  | _ => true

/-- Any mark but a comment is spelled as in source text. -/
theorem kept_eq_source {m : Mark} (h : m.IsSound) : m.kept = m.source := by
  cases m with
  | comment => exact h.elim
  | _ => rfl

/-- A sound mark is spelled by at least one character. -/
theorem kept_ne_nil {m : Mark} (h : m.IsSound) : m.kept ≠ [] := by
  cases m with
  | plain t => exact plain_ne_nil h
  | operator t => exact operator_ne_nil h
  | number t =>
    obtain ⟨c, cs, he, -⟩ := h.head
    show t.toList ≠ []
    simp [he]
  | literal t =>
    rcases h with h | ⟨s, rfl⟩
    · exact h.ne_nil
    · simp [kept, source, Literal.quote]
  | keyword t | name t | feature t | predicate t => exact h.ne_nil
  | comment t => exact h.elim
  | openParen | closeParen | openBracket | closeBracket | lineBreak =>
    simp [kept, source]

/-- Whether a mark is a bracket. -/
def isBracket : Mark → Bool
  | openParen | closeParen | openBracket | closeBracket => true
  | _ => false

/-- The characters of a mark within a line, unless it is a bracket or a string. -/
theorem isNeutral_kept {m : Mark} (h : m.IsSound) (hl : m.isInLine = true)
    (hq : ∀ s, m ≠ literal (Literal.quote s)) (hb : m.isBracket = false) :
    ∀ c ∈ m.kept, isNeutral c = true := by
  cases m with
  | plain t =>
    rcases h with h | h
    · have hall : ∀ t ∈ [" ", ", ", ":", ".", ","], t.toList.all isNeutral = true := by
        decide +kernel
      exact List.all_eq_true.1 (hall t h)
    · exact isNeutral_of_isWord h
  | operator t =>
    have hall : ∀ t ∈ signs ++ infixes, t.toList.all isNeutral = true := by decide +kernel
    exact List.all_eq_true.1 (hall t (List.mem_append.2 h))
  | number t =>
    intro c hc
    have hchar := h.chars c hc
    simp only [Bool.or_eq_true, beq_iff_eq] at hchar
    rcases hchar with (hn | rfl) | rfl
    · exact isNeutral_of_isNameChar hn
    · decide
    · decide
  | literal t =>
    rcases h with h | ⟨s, rfl⟩
    · exact isNeutral_of_isWord h
    · exact absurd rfl (hq s)
  | keyword t | name t | feature t | predicate t => exact isNeutral_of_isWord h
  | comment | lineBreak => exact absurd hl nofun
  | openParen | closeParen | openBracket | closeBracket => exact absurd hb nofun

/-- The brackets that a mark opens or closes are those of its text. -/
theorem bracketDepth_kept {m : Mark} (h : m.IsSound) (hl : m.isInLine = true) (d : Nat)
    (r : List Char) :
    bracketDepth none d (m.kept ++ r) = bracketDepth none (m.depthAfter d) r := by
  by_cases hq : ∃ s, m = literal (Literal.quote s)
  · obtain ⟨s, rfl⟩ := hq
    exact bracketDepth_quote s d r
  · cases hb : m.isBracket with
    | false =>
      rw [bracketDepth_append (isNeutral_kept h hl (fun s he => hq ⟨s, he⟩) hb)]
      cases m with
      | openParen | closeParen | openBracket | closeBracket => exact absurd hb nofun
      | _ => rfl
    | true =>
      cases m with
      | openParen | closeParen | openBracket | closeBracket => rfl
      | _ => exact absurd hb nofun

/-- The spelling of a mark within a line has no end of a line. -/
theorem not_mem_kept {m : Mark} (h : m.IsSound) (hl : m.isInLine = true) : '\n' ∉ m.kept := by
  by_cases hq : ∃ s, m = literal (Literal.quote s)
  · obtain ⟨s, rfl⟩ := hq
    simp [kept, source, Literal.quote, not_mem_escape]
  · cases hb : m.isBracket with
    | false =>
      intro hm
      have := isNeutral_kept h hl (fun s he => hq ⟨s, he⟩) hb '\n' hm
      exact absurd this (by decide)
    | true =>
      cases m with
      | openParen | closeParen | openBracket | closeBracket => decide
      | _ => cases hb

end Mark

namespace Paragraph

/-- Whether part of a line, where `d` brackets are open before it and `d'` after it, starts no
comment line, whatever follows it. -/
structure IsPart (d : Nat) (u : List Char) (d' : Nat) : Prop where
  line : '\n' ∉ u
  depth (r : List Char) : bracketDepth none d (u ++ r) = bracketDepth none d' r
  plain : d = 0 → ∀ r, keepComment? (u ++ r) = none

/-- A mark may follow part of a line. -/
theorem IsPart.mark {d₀ d : Nat} {u : List Char} {m : Mark} (h : IsPart d₀ u d) (hm : m.IsSound)
    (hl : m.isInLine = true) : IsPart d₀ (u ++ m.kept) (m.depthAfter d) where
  line := by
    rw [List.mem_append, not_or]
    exact ⟨h.line, Mark.not_mem_kept hm hl⟩
  depth r := by rw [List.append_assoc, h.depth, Mark.bracketDepth_kept hm hl]
  plain h₀ r := by
    rw [List.append_assoc]
    exact h.plain h₀ _

private theorem isNeutral_blanks (n : Nat) : ∀ c ∈ List.replicate n ' ', isNeutral c = true := by
  intro c hc
  rw [List.eq_of_mem_replicate hc]
  decide

/-- Spaces end no line. -/
theorem not_mem_blanks (n : Nat) : '\n' ∉ List.replicate n ' ' := by
  intro h
  exact absurd (List.eq_of_mem_replicate h) (by decide)

private theorem trimStart_blanks {s : List Char} (n : Nat) :
    Text.trimStart (List.replicate n ' ' ++ s) = Text.trimStart s := by
  induction n with
  | zero => rfl
  | succ n ih =>
    have hb : Text.isBlank ' ' = true := by decide
    rw [List.replicate_succ, List.cons_append, Text.trimStart, List.dropWhile_cons, if_pos hb]
    exact ih

private theorem keepComment?_of_head {n : Nat} {c : Char} (hc : c ≠ '#')
    (hb : Text.isBlank c = false)
    (s : List Char) : keepComment? (List.replicate n ' ' ++ c :: s) = none := by
  have ht : Text.trimStart (c :: s) = c :: s := by simp [Text.trimStart, hb]
  rw [keepComment?, trimStart_blanks, ht]
  split
  next he => exact absurd (List.cons.inj he).1 hc
  next => rfl

end Paragraph

/-- Whether keeping the comments of lines in a style respells them, and every other mark is spelled
as in source text. -/
structure Style.KeepsComments (style : Style) : Prop where
  plain {m : Mark} : (∀ t, m ≠ .comment t) → style.spell m = m.source
  line {t : String} : isCommentText t = true → '\n' ∉ style.spell (.comment t)
  kept {t : String} : isCommentText t = true → ∀ n : Nat,
    Paragraph.keepComment? (List.replicate n ' ' ++ style.spell (.comment t)) =
      some (List.replicate n ' ' ++ (Mark.comment t).kept)

namespace Style

variable {style : Style}

/-- A sound mark is spelled as in source text whose comments are kept. -/
theorem KeepsComments.sound (h : style.KeepsComments) {m : Mark} (hm : m.IsSound) :
    style.spell m = m.kept := by
  rw [Mark.kept_eq_source hm, h.plain]
  rintro t rfl
  exact hm

/-- The end of a line is spelled as one, with the indentation of the next line. -/
theorem KeepsComments.text_lineBreak (h : style.KeepsComments) (n : Nat) (ms : List Mark) :
    style.text (.lineBreak n :: ms) = '\n' :: (List.replicate n ' ' ++ style.text ms) := by
  show style.spell (.lineBreak n) ++ style.text ms = _
  rw [h.plain fun _ => Mark.noConfusion]
  rfl

end Style

namespace Paragraph

variable {style : Style}

/-- In legible marks only the line that they start outside of brackets could be a comment. -/
theorem keepFrom_legible (hstyle : style.KeepsComments) {ms : List Mark} {d₀ d d' : Nat}
    {u r₀ r : List Char} (h : Legible d ms d' r₀) (hu : IsPart d₀ u d) (hr : EndsLine r) :
    keepFrom d₀ (u ++ (style.text ms ++ r)) = u ++ (Style.kept.text ms ++ keepRest d' r) := by
  have part {d₀ d : Nat} {u r : List Char} (hu : IsPart d₀ u d) (hr : EndsLine r) :
      keepFrom d₀ (u ++ r) = u ++ keepRest d r := by
    have hd := hu.depth []
    rw [List.append_nil] at hd
    rw [keepFrom_line hu.line hr, hd]
    · rfl
    · intro h₀
      have := hu.plain h₀ []
      rwa [List.append_nil] at this
  induction ms generalizing d₀ d u with
  | nil =>
    obtain rfl : d = d' := h
    exact part hu hr
  | cons m ms ih =>
    obtain ⟨hm, -, hi, h⟩ := h
    cases hl : m.isInLine with
    | true =>
      have ih := ih h (hu.mark hm hl)
      rw [List.append_assoc, List.append_assoc] at ih
      show keepFrom d₀ (u ++ (style.spell m ++ style.text ms ++ r)) = _
      rw [hstyle.sound hm, List.append_assoc, ih, Style.kept_text_cons, List.append_assoc]
    | false =>
      cases m with
      | comment => exact hm.elim
      | lineBreak n =>
        have hpos : 0 < d := hi rfl
        have hblanks : IsPart d (List.replicate n ' ') d :=
          ⟨not_mem_blanks n, bracketDepth_append (isNeutral_blanks n) d, fun h₀ => by omega⟩
        have ih := ih h hblanks
        have hend : EndsLine ('\n' :: (List.replicate n ' ' ++ (style.text ms ++ r))) :=
          fun c hc => by simpa [eq_comm] using hc
        rw [hstyle.text_lineBreak, List.cons_append, List.append_assoc, part hu hend, keepRest, ih,
          Stmt.text_lineBreak, List.cons_append, List.append_assoc]
      | _ => cases hl

/-- Whether keeping the comments of lines that start with an indentation respells their marks. -/
def Keeps (style : Style) (ms : List Mark) : Prop :=
  ∀ (n : Nat) (r : List Char), EndsLine r →
    keepFrom 0 (List.replicate n ' ' ++ (style.text ms ++ r)) =
      List.replicate n ' ' ++ (Style.kept.text ms ++ keepRest 0 r)

private theorem keeps_line (hstyle : style.KeepsComments) {ms : List Mark}
    (hs : Lexer.StartsLine (Style.kept.text ms)) (h : Legible 0 ms 0 []) : Keeps style ms := by
  intro n r hr
  obtain ⟨c, cs, he, hc, hb⟩ := hs
  cases ms with
  | nil => exact absurd he nofun
  | cons m ms =>
    obtain ⟨hm, -, hi, h⟩ := h
    have hl : m.isInLine = true := by
      cases m with
      | comment => exact hm.elim
      | lineBreak => exact absurd (hi rfl) (by decide)
      | _ => rfl
    obtain ⟨c', k, hk⟩ := List.exists_cons_of_ne_nil (Mark.kept_ne_nil hm)
    rw [Style.kept_text_cons, hk] at he
    obtain rfl : c' = c := (List.cons.inj he).1
    have hpart : IsPart 0 (List.replicate n ' ' ++ m.kept) (m.depthAfter 0) := by
      refine ⟨?_, fun r => ?_, fun _ r => ?_⟩
      · rw [List.mem_append, not_or]
        exact ⟨not_mem_blanks n, Mark.not_mem_kept hm hl⟩
      · rw [List.append_assoc, bracketDepth_append (isNeutral_blanks n),
          Mark.bracketDepth_kept hm hl]
      · rw [hk, List.append_assoc]
        exact keepComment?_of_head hc hb _
    have hkeep := keepFrom_legible hstyle h hpart hr
    rw [List.append_assoc, List.append_assoc] at hkeep
    show keepFrom 0 (List.replicate n ' ' ++ (style.spell m ++ style.text ms ++ r)) = _
    rw [hstyle.sound hm, List.append_assoc, hkeep, Style.kept_text_cons, List.append_assoc]

private theorem keeps_comment (hstyle : style.KeepsComments) {text : String}
    (h : isCommentText text = true) : Keeps style [.comment text] := by
  intro n r hr
  have hu : '\n' ∉ List.replicate n ' ' ++ style.spell (.comment text) := by
    rw [List.mem_append, not_or]
    exact ⟨not_mem_blanks n, hstyle.line h⟩
  have hkept := keepFrom_comment hu hr (hstyle.kept h n)
  rw [List.append_assoc, List.append_assoc] at hkept
  show keepFrom 0 (List.replicate n ' ' ++ (style.spell (.comment text) ++ [] ++ r)) = _
  rw [List.append_nil, hkept, Style.kept_text_cons, Style.kept_text_nil, List.append_nil]

private theorem keeps_of_isLines (hstyle : style.KeepsComments) {ms : List Mark}
    (h : Stmt.IsLines ms) :
    Keeps style ms := by
  induction h with
  | line hs h => exact keeps_line hstyle hs (h [] nofun)
  | comment h => exact keeps_comment hstyle h
  | @append ms ms' m _ _ ih ih' =>
    intro n r hr
    have hend : EndsLine ('\n' :: (List.replicate m ' ' ++ (style.text ms' ++ r))) :=
      fun c hc => by simpa [eq_comm] using hc
    have hsplit : style.text (ms ++ .lineBreak m :: ms') ++ r = style.text ms ++
        '\n' :: (List.replicate m ' ' ++ (style.text ms' ++ r)) := by
      rw [Style.text_append, hstyle.text_lineBreak]
      simp
    rw [hsplit, ih n _ hend, keepRest, ih' m r hr, Style.text_append, Stmt.text_lineBreak]
    simp

/-- A line that starts with a hash becomes the call of its comment. -/
theorem keepComment?_hash (n : Nat) (s : List Char) :
    keepComment? (List.replicate n ' ' ++ '#' :: s) =
      some (List.replicate n ' ' ++ (commentName.toList ++
        (['(', '"'] ++ quoteComment (commentText ('#' :: s)) ++ ['"', ')']))) := by
  have hlead : Text.lead (List.replicate n ' ' ++ '#' :: s) = List.replicate n ' ' := by
    refine takeWhile_append_of_head (fun c hc => ?_) fun c hc => ?_
    · rw [List.eq_of_mem_replicate hc]
      decide
    · obtain rfl : '#' = c := by simpa using hc
      decide
  have hstart : Text.trimStart ('#' :: s) = '#' :: s := rfl
  rw [keepComment?, trimStart_blanks, hstart, hlead]
  simp only [List.append_assoc]

/-- A comment is kept as it was written. -/
theorem keepComment?_source {text : String} (h : isCommentText text = true) (n : Nat) :
    keepComment? (List.replicate n ' ' ++ (Mark.comment text).source) =
      some (List.replicate n ' ' ++ (Mark.comment text).kept) := by
  have htext : commentText ('#' :: ' ' :: text.toList) = text.toList :=
    eq_of_beq (Bool.and_eq_true_iff.1 h).1
  rw [Mark.source, keepComment?_hash, htext]
  rfl

/-- The text of a comment stands on one line. -/
theorem not_mem_of_isCommentText {text : String} (h : isCommentText text = true) :
    '\n' ∉ text.toList := by
  simpa using (Bool.and_eq_true_iff.1 h).2

end Paragraph

/-- Keeping the comments of source text respells them. -/
theorem Style.keepsComments_source : Style.source.KeepsComments where
  plain _ := rfl
  line h := by simp [Style.source, Mark.source, Paragraph.not_mem_of_isCommentText h]
  kept h n := Paragraph.keepComment?_source h n

/-- Keeping the comments of a layout in a style respells them and nothing else. -/
theorem Block.keepComments_text {style : Style} (hstyle : style.KeepsComments)
    {fractions : Binary64 → Bool} (hf : ∀ x, fractions x = true → x.IsWritten) {b : Block}
    (h : b.isSpelled fractions = true) :
    Paragraph.keepComments (style.text b.layout) = Style.kept.text b.layout := by
  have h := Stmt.isSpelled_block.1 h
  cases b with
  | nil => rfl
  | cons s ss =>
    have hb := Stmt.linesAt_block fun s' hs => Stmt.linesAt_of_isSpelled hf (h s' hs) 0
    have hkeep := Paragraph.keeps_of_isLines hstyle hb.lines 0 [] nofun
    rw [List.append_nil] at hkeep
    exact hkeep.trans (by simp [Paragraph.keepRest, Block.layout])

/-- Keeping the comments of the source text of a block respells them and nothing else. -/
theorem Block.keepComments_source {fractions : Binary64 → Bool}
    (hf : ∀ x, fractions x = true → x.IsWritten) {b : Block} (h : b.isSpelled fractions = true) :
    Paragraph.keepComments b.source = Style.kept.text b.layout := by
  have hsource : b.source = Style.source.text b.layout := by
    simp [source, Style.document, Style.source]
  rw [hsource]
  exact keepComments_text Style.keepsComments_source hf h

end ValidUsage
