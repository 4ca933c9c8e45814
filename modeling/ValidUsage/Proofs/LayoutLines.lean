import ValidUsage.Document.Layout
import ValidUsage.Proofs.Blanks
import ValidUsage.Proofs.KeepComments
import ValidUsage.Proofs.LineEnds

/-!
# The lines of a layout

The source text of a block is its lines, each with its indentation. None of them is blank, opens
with a bullet or ends a paragraph, wherever it is moved to; only the line of an empty comment ends
with a blank.
-/

namespace ValidUsage

namespace Text

/-- Whether a text stands on a line of its own and does not end like one. -/
structure IsLine (u : List Char) : Prop where
  newline : '\n' ∉ u
  carriage : u.getLast? ≠ some '\r'

/-- Text without line ends is taken into the line that it continues. -/
theorem lines_go_append {u : List Char} (hu : '\n' ∉ u) (s acc : List Char) :
    lines.go (u ++ s) acc = lines.go s (u.reverse ++ acc) := by
  induction u generalizing acc with
  | nil => rfl
  | cons c u ih =>
    have hc := List.ne_of_not_mem_cons hu
    rw [List.cons_append, lines.go, if_neg (Ne.symm hc), ih (List.not_mem_of_not_mem_cons hu)]
    simp

/-- A line ends at the first end of a line. -/
theorem lines_go_line {u : List Char} (hu : '\n' ∉ u) (s acc : List Char) :
    lines.go (u ++ '\n' :: s) acc = lines.dropReturn (u.reverse ++ acc) :: lines.go s [] := by
  rw [lines_go_append hu]
  simp [lines.go]

private theorem lines_go_last {u : List Char} (hu : '\n' ∉ u) (acc : List Char)
    (hne : u.reverse ++ acc ≠ []) : lines.go u acc = [(u.reverse ++ acc).reverse] := by
  rw [← u.append_nil, lines_go_append hu, List.append_nil, lines.go]
  exact if_neg (by simpa using hne)

private theorem dropReturn_prefix (acc : List Char) : lines.dropReturn acc <+: acc.reverse := by
  unfold lines.dropReturn
  split
  · rw [List.reverse_cons]
    exact List.prefix_append _ _
  · exact List.prefix_rfl

/-- A line of a text is part of it and has no line end. -/
theorem infix_of_mem_lines {s l : List Char} (h : l ∈ lines s) : l <:+: s ∧ '\n' ∉ l := by
  suffices hgo : ∀ (s acc : List Char), '\n' ∉ acc → l ∈ lines.go s acc →
      l <:+: acc.reverse ++ s ∧ '\n' ∉ l from hgo s [] List.not_mem_nil h
  intro s
  induction s with
  | nil =>
    intro acc hacc h
    rw [lines.go] at h
    split at h
    · exact absurd h List.not_mem_nil
    · rw [List.mem_singleton.1 h, List.append_nil]
      exact ⟨List.infix_rfl, fun hm => hacc (List.mem_reverse.1 hm)⟩
  | cons c s ih =>
    intro acc hacc h
    rw [lines.go] at h
    split at h
    · rcases List.mem_cons.1 h with rfl | h
      · have hdrop := dropReturn_prefix acc
        exact ⟨hdrop.isInfix.trans (List.prefix_append _ _).isInfix,
          fun hm => hacc (List.mem_reverse.1 (hdrop.subset hm))⟩
      · obtain ⟨hin, hn⟩ := ih [] List.not_mem_nil h
        exact ⟨(show l <:+: s from hin).trans
          ((List.suffix_cons c s).isInfix.trans (List.suffix_append _ _).isInfix), hn⟩
    · rename_i hc
      have hacc' : '\n' ∉ c :: acc := fun hm => by
        rcases List.mem_cons.1 hm with rfl | hm
        · exact hc rfl
        · exact hacc hm
      simpa using ih (c :: acc) hacc' h

/-- What is a line of its own has no carriage return to drop. -/
theorem IsLine.dropReturn {u : List Char} (h : IsLine u) : lines.dropReturn u.reverse = u := by
  unfold lines.dropReturn
  split
  · rename_i acc he
    refine absurd ?_ h.carriage
    rw [← List.head?_reverse, he]
    rfl
  · exact List.reverse_reverse u

/-- The lines of a text are what it was made of. -/
theorem lines_flatMap {ls : List (List Char)} (h : ∀ u ∈ ls, IsLine u) :
    lines (ls.flatMap (· ++ ['\n'])) = ls := by
  induction ls with
  | nil => rfl
  | cons u ls ih =>
    obtain ⟨hu, hls⟩ := List.forall_mem_cons.1 h
    rw [List.flatMap_cons, List.append_assoc, List.singleton_append, lines,
      lines_go_line hu.newline, List.append_nil, hu.dropReturn]
    exact congrArg _ (ih hls)

/-- Lines that are put together are the lines of the text. -/
theorem lines_join {ls : List (List Char)} (h : ∀ u ∈ ls, IsLine u) (hne : [] ∉ ls) :
    lines (join ['\n'] ls) = ls := by
  induction ls with
  | nil => rfl
  | cons u ls ih =>
    obtain ⟨hu, hls⟩ := List.forall_mem_cons.1 h
    have hu' : u ≠ [] := Ne.symm (List.ne_of_not_mem_cons hne)
    have hnes := List.not_mem_of_not_mem_cons hne
    cases ls with
    | nil =>
      have hlast := lines_go_last hu.newline [] (by simpa using hu')
      simpa [join, List.intercalate, lines] using hlast
    | cons u' ls =>
      rw [join_cons (List.cons_ne_nil _ _), List.append_assoc, List.singleton_append, lines,
        lines_go_line hu.newline, List.append_nil, hu.dropReturn]
      exact congrArg _ (ih hls hnes)

/-- The lines of pieces that are joined by line ends are the pieces, but for carriage returns. -/
theorem prefix_of_mem_lines_join {us : List (List Char)} (h : ∀ u ∈ us, '\n' ∉ u) :
    ∀ l ∈ lines (join ['\n'] us), ∃ u ∈ us, l <+: u := by
  induction us with
  | nil => exact List.forall_mem_nil _
  | cons u us ih =>
    obtain ⟨hu, hus⟩ := List.forall_mem_cons.1 h
    cases us with
    | nil =>
      intro l hl
      have hjoin : join ['\n'] [u] = u ++ [] := by simp [join, List.intercalate]
      rw [hjoin, lines, lines_go_append hu, lines.go] at hl
      split at hl
      · exact absurd hl List.not_mem_nil
      · have hlast : l = u := by simpa using hl
        exact ⟨u, List.mem_cons_self, hlast ▸ List.prefix_rfl⟩
    | cons u' us =>
      rw [join_cons (List.cons_ne_nil _ _), List.append_assoc, List.singleton_append, lines,
        lines_go_line hu, List.append_nil]
      refine List.forall_mem_cons.2 ⟨⟨u, List.mem_cons_self, ?_⟩, fun l hl => ?_⟩
      · simpa using dropReturn_prefix u.reverse
      · obtain ⟨v, hv, hprefix⟩ := ih hus l hl
        exact ⟨v, List.mem_cons_of_mem _ hv, hprefix⟩

/-- Trimming at the end does not reach beyond what is not blank. -/
theorem trimEnd_append_of_ne_nil {s : List Char} (h : trimEnd s ≠ []) (u : List Char) :
    trimEnd (u ++ s) = u ++ trimEnd s := by
  obtain ⟨w, he, hw⟩ := exists_trimEnd s
  obtain ⟨r, c, hr, hc⟩ := (trimEnd_eq_nil_or_concat s).resolve_left h
  have heq : trimEnd (u ++ s) = trimEnd (u ++ (r ++ [c] ++ w)) := by rw [← hr, ← he]
  rw [heq, hr, ← List.append_assoc, trimEnd_append hw, ← List.append_assoc, trimEnd_concat hc]

/-- A text that starts with something besides a blank is not only blanks. -/
theorem trimEnd_cons_ne_nil {c : Char} (hc : isBlank c = false) (s : List Char) :
    trimEnd (c :: s) ≠ [] := by
  intro h
  obtain ⟨w, he, hw⟩ := exists_trimEnd (c :: s)
  rw [h, List.nil_append] at he
  exact absurd (hw c (he ▸ List.mem_cons_self)) (by simp [hc])

/-- Spaces are blanks. -/
theorem isBlank_of_mem_replicate {n : Nat} : ∀ c ∈ List.replicate n ' ', isBlank c = true := by
  intro c hc
  rw [List.eq_of_mem_replicate hc]
  decide

end Text

/-! ## Lines of marks -/

/-- The marks of a line, and its indentation. -/
structure MarkLine where
  indent : Nat
  marks : List Mark

/-- The text of a line. -/
def MarkLine.text (style : Style) (l : MarkLine) : List Char :=
  List.replicate l.indent ' ' ++ style.text l.marks

/-- The lines of marks, when those of the first line up to them are given. -/
def linesFrom (n : Nat) (line : List Mark) : List Mark → List MarkLine
  | [] => [⟨n, line⟩]
  | .lineBreak k :: ms => ⟨n, line⟩ :: linesFrom k [] ms
  | m :: ms => linesFrom n (line ++ [m]) ms

/-- The lines of a block. -/
def Block.lines (b : Block) : List MarkLine := linesFrom 0 [] b.layout

section Lines

variable {n : Nat} {line ms : List Mark}

/-- A mark within a line belongs to the line. -/
theorem linesFrom_cons {m : Mark} (hm : m.isBreak = false) :
    linesFrom n line (m :: ms) = linesFrom n (line ++ [m]) ms := by
  rw [linesFrom]
  rintro k rfl
  exact absurd hm nofun

private theorem linesFrom_ne_nil (n : Nat) (line ms : List Mark) : linesFrom n line ms ≠ [] := by
  induction ms generalizing n line with
  | nil => exact List.cons_ne_nil _ _
  | cons m ms ih =>
    cases hm : m.isBreak with
    | false =>
      rw [linesFrom_cons hm]
      exact ih n _
    | true =>
      cases m with
      | lineBreak k => exact List.cons_ne_nil _ _
      | _ => exact absurd hm nofun

private theorem linesFrom_append (n : Nat) (line ms : List Mark) (k : Nat) (ms' : List Mark) :
    linesFrom n line (ms ++ .lineBreak k :: ms') = linesFrom n line ms ++ linesFrom k [] ms' := by
  induction ms generalizing n line with
  | nil => rfl
  | cons m ms ih =>
    cases hm : m.isBreak with
    | false => rw [List.cons_append, linesFrom_cons hm, linesFrom_cons hm, ih]
    | true =>
      cases m with
      | lineBreak j => rw [List.cons_append, linesFrom, linesFrom, ih, List.cons_append]
      | _ => exact absurd hm nofun

/-- The text of marks is that of their lines, joined by line ends. -/
theorem text_linesFrom {style : Style} (h : style.KeepsComments) :
    List.replicate n ' ' ++ style.text (line ++ ms) =
      Text.join ['\n'] ((linesFrom n line ms).map (MarkLine.text style)) := by
  induction ms generalizing n line with
  | nil => simp [linesFrom, Text.join, List.intercalate, MarkLine.text]
  | cons m ms ih =>
    cases hm : m.isBreak with
    | false =>
      rw [linesFrom_cons hm, ← ih]
      simp
    | true =>
      cases m with
      | lineBreak k =>
        have hne : (linesFrom k [] ms).map (MarkLine.text style) ≠ [] := fun he =>
          linesFrom_ne_nil k [] ms (List.map_eq_nil_iff.1 he)
        have ih := @ih k []
        rw [linesFrom, List.map_cons, Text.join_cons hne, ← ih, Style.text_append,
          h.text_lineBreak]
        simp [MarkLine.text]
      | _ => cases hm

/-- What holds of each line follows from what holds of all marks from its start on. -/
theorem forall_linesFrom {R P : List Mark → Prop}
    (hend : ∀ l, (∀ m ∈ l, m.isBreak = false) → R l → P l)
    (hbreak : ∀ l k ms, (∀ m ∈ l, m.isBreak = false) → R (l ++ .lineBreak k :: ms) → P l ∧ R ms)
    (hl : ∀ m ∈ line, m.isBreak = false) (h : R (line ++ ms)) :
    ∀ l ∈ linesFrom n line ms, P l.marks := by
  induction ms generalizing n line with
  | nil =>
    rw [List.append_nil] at h
    intro l hmem
    rw [List.mem_singleton.1 hmem]
    exact hend line hl h
  | cons m ms ih =>
    cases hm : m.isBreak with
    | false =>
      rw [linesFrom_cons hm]
      refine ih (fun m' hm' => ?_) (by simpa using h)
      rcases List.mem_append.1 hm' with hm' | hm'
      · exact hl m' hm'
      · rw [List.mem_singleton.1 hm', hm]
    | true =>
      cases m with
      | lineBreak k =>
        obtain ⟨hp, hr⟩ := hbreak line k ms hl h
        rw [linesFrom]
        exact List.forall_mem_cons.2 ⟨hp, ih nofun hr⟩
      | _ => exact absurd hm nofun

end Lines

/-! ## What a line starts and ends with -/

/-- Whether marks start a line and can end it. -/
def IsWhole (ms : List Mark) : Prop := Opens ms ∧ ∃ m, ms.getLast? = some m ∧ m.closes = true

/-- The last of tidy marks are tidy. -/
theorem Tidy.of_append {r ms ms' : List Mark} (h : Tidy r (ms ++ ms')) : Tidy r ms' := by
  induction ms with
  | nil => exact h
  | cons m ms ih => exact ih h.2

/-- Whether marks start a line is seen from the first of them. -/
theorem Opens.of_append {l ms : List Mark} (h : Opens (l ++ ms)) (hne : l ≠ []) : Opens l := by
  obtain ⟨m, ms', he, ho, hd⟩ := h
  obtain ⟨m', l, rfl⟩ := List.exists_cons_of_ne_nil hne
  obtain ⟨rfl, rfl⟩ := List.cons.inj he
  refine ⟨m', l, rfl, ho, fun h => ?_⟩
  have hd := hd h
  cases l with
  | nil => exact nofun
  | cons m l => exact hd

private theorem not_opens_lineBreak (k : Nat) (ms : List Mark) : ¬Opens (.lineBreak k :: ms) := by
  rintro ⟨m, ms', he, ho, -⟩
  obtain ⟨rfl, -⟩ := List.cons.inj he
  exact absurd ho (by simp [Mark.opens, Mark.source]; decide)

/-- Each line of whole lines starts and ends as it should. -/
theorem Rests.isWhole {ms : List Mark} (h : Rests ms) (n : Nat) :
    ∀ l ∈ linesFrom n [] ms, IsWhole l.marks := by
  have hopens := h.opening [] .nil
  rw [List.append_nil] at hopens
  refine forall_linesFrom (R := fun ms => Tidy [] ms ∧ IsWhole ms) ?_ ?_ nofun
    ⟨h.tidy [] .nil, hopens, h.last⟩
  · exact fun l _ h => h.2
  · rintro l k ms hl ⟨ht, ho, m', hm', hc'⟩
    have hne : l ≠ [] := by
      rintro rfl
      exact not_opens_lineBreak k ms ho
    have hrest : Opens (ms ++ []) ∧ Tidy [] ms := ht.of_append
    rw [List.append_nil] at hrest
    refine ⟨⟨ho.of_append hne, ?_⟩, hrest.2, hrest.1, m', ?_, hc'⟩
    · -- the mark in front of the end of the line can be the last one of a line
      obtain ⟨l', m, rfl⟩ : ∃ l' m, l = l' ++ [m] :=
        ⟨l.dropLast, l.getLast hne, (List.dropLast_concat_getLast hne).symm⟩
      rw [List.append_assoc] at ht
      have hm : (if m.isBreak = true then Opens _ else _ → m.closes = true) ∧ Tidy [] _ :=
        ht.of_append
      rw [if_neg (by simp [hl m (by simp)])] at hm
      exact ⟨m, List.getLast?_concat, hm.1 rfl⟩
    · obtain ⟨m, ms, rfl, -⟩ := hrest.1
      rw [List.getLast?_append, List.getLast?_cons_cons, List.getLast?_cons, Option.some_or] at hm'
      rwa [List.getLast?_cons]

/-- Whether each mark can be told from the text behind it. -/
def Parted (ms : List Mark) : Prop :=
  ∀ pre m post, ms = pre ++ m :: post → ∀ c ∈ (Style.kept.text post).head?, m.endsBefore c = true

private theorem parted_of_legible {ms : List Mark} {d d' : Nat} {r : List Char}
    (h : Legible d ms d' r) :
    (∀ m ∈ ms, m.IsSound) ∧ Parted ms := by
  induction ms generalizing d with
  | nil => exact ⟨nofun, fun pre m post he => by simp at he⟩
  | cons m ms ih =>
    obtain ⟨hm, he, -, h⟩ := h
    obtain ⟨hs, hp⟩ := ih h
    refine ⟨List.forall_mem_cons.2 ⟨hm, hs⟩, ?_⟩
    rintro pre m' post heq c hc
    cases pre with
    | nil =>
      obtain ⟨rfl, rfl⟩ := List.cons.inj heq
      exact he c (by rw [List.head?_append, hc]; rfl)
    | cons m'' pre =>
      obtain ⟨rfl, rfl⟩ := List.cons.inj heq
      exact hp pre m' post rfl c hc

/-- Whether marks are legible on a line. -/
structure IsLegibleLine (ms : List Mark) : Prop where
  sound : ∀ m ∈ ms, m.IsSound
  inLine : ∀ m ∈ ms, m.isInLine = true
  parted : Parted ms

/-- Whether marks are a comment, or legible on a line. -/
def IsLegibleOrComment (ms : List Mark) : Prop :=
  (∃ t, ms = [.comment t] ∧ isCommentText t = true) ∨ IsLegibleLine ms

/-- A sound mark that ends no line stands within one. -/
theorem Mark.IsSound.isInLine {m : Mark} (h : m.IsSound) (hb : m.isBreak = false) :
    m.isInLine = true := by
  cases m with
  | comment => exact h.elim
  | lineBreak => exact absurd hb nofun
  | _ => rfl

/-- Each line of a statement is a comment or legible. -/
theorem Stmt.IsLines.linesFrom {ms : List Mark} (h : IsLines ms) (n : Nat) :
    ∀ l ∈ linesFrom n [] ms, IsLegibleOrComment l.marks := by
  induction h generalizing n with
  | line _ h =>
    have h := parted_of_legible (h [] nofun)
    refine forall_linesFrom (R := fun ms => (∀ m ∈ ms, m.IsSound) ∧ Parted ms) ?_ ?_ nofun h
    · exact fun l hl h => .inr ⟨h.1, fun m hm => (h.1 m hm).isInLine (hl m hm), h.2⟩
    · rintro l k ms hl ⟨hs, hp⟩
      refine ⟨.inr ⟨fun m hm => hs m (List.mem_append_left _ hm), fun m hm => ?_, ?_⟩,
        fun m hm => hs m (List.mem_append_right _ (List.mem_cons_of_mem _ hm)), ?_⟩
      · exact (hs m (List.mem_append_left _ hm)).isInLine (hl m hm)
      · rintro pre m post rfl c hc
        refine hp pre m (post ++ .lineBreak k :: ms) (by simp) c ?_
        rw [Style.text_append, List.head?_append, hc]
        rfl
      · rintro pre m post rfl c hc
        exact hp (l ++ .lineBreak k :: pre) m post (by simp) c hc
  | comment h =>
    intro l hl
    rw [linesFrom_cons rfl] at hl
    rw [List.mem_singleton.1 hl]
    exact .inl ⟨_, rfl, h⟩
  | append m _ _ ih ih' =>
    rw [linesFrom_append]
    exact List.forall_mem_append.2 ⟨ih n, ih' m⟩

/-- Whether the marks of a line are those of a layout. -/
def IsLayoutLine (ms : List Mark) : Prop := IsWhole ms ∧ IsLegibleOrComment ms

/-- Each line of a block is one of a layout. -/
theorem Block.isLayoutLine {fractions : Binary64 → Bool}
    (hf : ∀ x, fractions x = true → x.IsWritten) {b : Block} (h : b.isSpelled fractions = true)
    (hne : b ≠ []) : ∀ l ∈ b.lines, IsLayoutLine l.marks := by
  intro l hl
  refine ⟨(rests_layout hf h hne).isWhole 0 l hl, ?_⟩
  obtain ⟨s, ss, rfl⟩ := List.exists_cons_of_ne_nil hne
  have hlines := Stmt.linesAt_block fun s' hs => Stmt.linesAt_of_isSpelled
    hf (Stmt.isSpelled_block.1 h s' hs) 0
  exact hlines.lines.linesFrom 0 l hl

/-! ## The text of a line -/

/-- The spelling of a mark without trailing blanks: an empty comment has one. -/
def Mark.trimmed : Mark → List Char
  | .comment t => Text.trimEnd (Mark.comment t).source
  | m => m.source

/-- The style of source text whose lines have no trailing blanks. -/
def Style.trimmed : Style := ⟨"", "", Mark.trimmed⟩

private theorem trimmed_comment {t : String} (h : isCommentText t = true) :
    (Mark.comment t).source = ['#', ' '] ∨ (Mark.comment t).trimmed = (Mark.comment t).source := by
  have htrim : Text.trim t.toList = t.toList := eq_of_beq (Bool.and_eq_true_iff.1 h).1
  have hend : Text.trimEnd t.toList = t.toList := by
    rw [← htrim, Text.trim, Text.trimEnd_trimEnd]
  by_cases ht : t.toList = []
  · exact .inl (by rw [Mark.source, ht])
  · refine .inr ?_
    have hne : Text.trimEnd t.toList ≠ [] := by rwa [hend]
    have happend := Text.trimEnd_append_of_ne_nil hne ['#', ' ']
    rw [hend] at happend
    exact happend

/-- Keeping the comments of source text without blanks at the ends of lines respells them. -/
theorem Style.keepsComments_trimmed : Style.trimmed.KeepsComments where
  plain {m} h := by
    cases m with
    | comment t => exact absurd rfl (h t)
    | _ => rfl
  line {t} h := by
    have hsource := Style.keepsComments_source.line h
    exact fun hm => hsource ((Text.trimEnd_prefix_self _).subset hm)
  kept {t} h n := by
    show Paragraph.keepComment? (_ ++ (Mark.comment t).trimmed) = _
    rcases trimmed_comment h with hs | hs
    · have ht : t.toList = [] := (List.cons.inj (List.cons.inj hs).2).2
      rw [Mark.trimmed, hs]
      refine (Paragraph.keepComment?_hash n []).trans ?_
      rw [Mark.kept, ht]
      rfl
    · rw [hs]
      exact Paragraph.keepComment?_source h n

private theorem text_singleton (style : Style) (m : Mark) : style.text [m] = style.spell m := by
  simp [Style.text]

private theorem text_trimmed_of_inLine {ms : List Mark} (h : ∀ m ∈ ms, m.isInLine = true) :
    Style.trimmed.text ms = Style.source.text ms := by
  induction ms with
  | nil => rfl
  | cons m ms ih =>
    obtain ⟨hm, hms⟩ := List.forall_mem_cons.1 h
    have hspell : m.trimmed = m.source := by
      cases m with
      | comment => exact absurd hm nofun
      | _ => rfl
    show m.trimmed ++ Style.trimmed.text ms = m.source ++ Style.source.text ms
    rw [hspell, ih hms]

private theorem text_kept_of_sound {ms : List Mark} (h : ∀ m ∈ ms, m.IsSound) :
    Style.kept.text ms = Style.source.text ms := by
  induction ms with
  | nil => rfl
  | cons m ms ih =>
    obtain ⟨hm, hms⟩ := List.forall_mem_cons.1 h
    rw [Style.kept_text_cons, Mark.kept_eq_source hm, ih hms]
    rfl

/-- The last character of a line that is no comment. -/
theorem IsWhole.getLast? {ms : List Mark} (h : IsWhole ms) (hl : ∀ m ∈ ms, m.isInLine = true) :
    ∃ s c, Style.source.text ms = s ++ [c] ∧ Text.isBlank c = false ∧ c ≠ '-' := by
  obtain ⟨-, m, hm, hc⟩ := h
  obtain ⟨ms, rfl⟩ := List.getLast?_eq_some_iff.1 hm
  have hclose : m.source.getLast?.any (fun c => !Text.isBlank c && c != '-') = true := by
    cases m with
    | comment t => exact absurd (hl (.comment t) (by simp)) nofun
    | _ => exact hc
  obtain ⟨c, hlast, hc⟩ := (Option.any_eq_true _ _).1 hclose
  obtain ⟨s, hs⟩ := List.getLast?_eq_some_iff.1 hlast
  simp only [Bool.and_eq_true, Bool.not_eq_true', bne_iff_ne] at hc
  refine ⟨Style.source.text ms ++ s, c, ?_, hc⟩
  rw [Style.text_append, text_singleton, List.append_assoc, ← hs]
  rfl

namespace IsLayoutLine

variable {ms : List Mark}

/-- The source text of a line has no trailing blanks, unless it is an empty comment. -/
theorem trimmed_or (h : IsLayoutLine ms) :
    (Style.source.text ms = ['#', ' '] ∧ Style.trimmed.text ms = ['#']) ∨
      ((∃ s c, Style.source.text ms = s ++ [c] ∧ Text.isBlank c = false) ∧
        Style.trimmed.text ms = Style.source.text ms) := by
  rcases h.2 with ⟨t, rfl, ht⟩ | hl
  · rw [text_singleton, text_singleton]
    show (Mark.comment t).source = _ ∧ (Mark.comment t).trimmed = _ ∨ _
    rcases trimmed_comment ht with hs | hs
    · exact .inl ⟨hs, by rw [Mark.trimmed, hs]; decide⟩
    · refine .inr ⟨?_, hs⟩
      rcases Text.trimEnd_eq_nil_or_concat (Mark.comment t).source with he | ⟨s, c, he, hc⟩
      · exact absurd he (Text.trimEnd_cons_ne_nil (by decide) _)
      · exact ⟨s, c, hs.symm.trans he, hc⟩
  · obtain ⟨s, c, hs, hc, -⟩ := h.1.getLast? hl.inLine
    exact .inr ⟨⟨s, c, hs, hc⟩, text_trimmed_of_inLine hl.inLine⟩

/-- The text of a line without the blanks at its end. -/
theorem trimEnd (h : IsLayoutLine ms) :
    Text.trimEnd (Style.source.text ms) = Style.trimmed.text ms := by
  rcases h.trimmed_or with ⟨hs, ht⟩ | ⟨⟨s, c, hs, hc⟩, ht⟩
  · rw [hs, ht]
    decide
  · rw [ht, hs, Text.trimEnd_concat hc]

/-- A line starts with what is neither blank nor a bullet. -/
theorem head (h : IsLayoutLine ms) :
    ∃ c cs, Style.source.text ms = c :: cs ∧ Text.isBlank c = false ∧ c ≠ '*' := by
  obtain ⟨⟨m, ms, rfl, ho, -⟩, -⟩ := h.1
  obtain ⟨c, hc, hp⟩ := (Option.any_eq_true _ _).1 ho
  obtain ⟨cs, hs⟩ := List.head?_eq_some_iff.1 hc
  simp only [Bool.and_eq_true, Bool.not_eq_true', bne_iff_ne] at hp
  refine ⟨c, cs ++ Style.source.text ms, ?_, hp⟩
  show m.source ++ Style.source.text ms = _
  rw [hs, List.cons_append]

/-- A line starts with something besides a blank, and with no bullet. -/
theorem head_trimmed (h : IsLayoutLine ms) :
    ∃ c cs, Style.trimmed.text ms = c :: cs ∧ Text.isBlank c = false ∧ c ≠ '*' := by
  obtain ⟨c, cs, hs, hc⟩ := h.head
  rw [← h.trimEnd, hs]
  cases ht : Text.trimEnd (c :: cs) with
  | nil => exact absurd ht (Text.trimEnd_cons_ne_nil hc.1 cs)
  | cons c' cs' =>
    obtain rfl : c = c' := Option.some.inj (Text.head?_trimEnd (c :: cs) c' (by rw [ht]; rfl))
    exact ⟨c, cs', rfl, hc⟩

/-- The text of a line is one. -/
theorem isLine (h : IsLayoutLine ms) : Text.IsLine (Style.source.text ms) where
  newline := by
    rcases h.2 with ⟨t, rfl, ht⟩ | hl
    · rw [text_singleton]
      exact Style.keepsComments_source.line ht
    · intro hm
      obtain ⟨m, hmem, hm⟩ := List.mem_flatMap.1 hm
      have hkept := Mark.not_mem_kept (hl.sound m hmem) (hl.inLine m hmem)
      rw [Mark.kept_eq_source (hl.sound m hmem)] at hkept
      exact hkept hm
  carriage := by
    rcases h.trimmed_or with ⟨hs, -⟩ | ⟨⟨s, c, hs, hc⟩, -⟩
    · rw [hs]
      decide
    · rw [hs, List.getLast?_concat]
      rintro he
      obtain rfl : c = '\r' := Option.some.inj he
      exact absurd hc (by decide)

end IsLayoutLine

/-! ## The words of a document's own -/

/-- A mark that is legible on a line is a word, an operator or a colon, or it starts with a sign. -/
theorem Mark.IsSound.cases_word {m : Mark} (h : m.IsSound) (hl : m.isInLine = true) :
    (∃ t, m.source = t.toList ∧ IsWord t ∧
      ∀ c, m.endsBefore c = true → Text.isNameChar c = false) ∨
    (∃ t ∈ Mark.signs ++ Mark.infixes, m = .operator t) ∨ m = .colon ∨
      ∀ c ∈ m.source.head?, Text.isNameStart c = false ∧ c ≠ ':' := by
  have word {t : String} (hs : m.source = t.toList) (ht : IsWord t)
      (he : ∀ c, m.endsBefore c = !Text.isNameChar c) :
      ∃ t, m.source = t.toList ∧ IsWord t ∧
        ∀ c, m.endsBefore c = true → Text.isNameChar c = false :=
    ⟨t, hs, ht, fun c hc => by simpa [he] using hc⟩
  cases m with
  | plain t =>
    rcases h with h | h
    · have hall : ∀ t ∈ [" ", ", ", ":", ".", ","], t = ":" ∨
          t.toList.head?.all (fun c => !Text.isNameStart c && c != ':') = true := by decide
      rcases hall t h with rfl | hc
      · exact .inr (.inr (.inl rfl))
      · refine .inr (.inr (.inr fun c hm => ?_))
        simpa using Option.all_eq_true _ _ |>.1 hc c hm
    · exact .inl (word rfl h fun c => by rw [endsBefore, if_pos h.head])
  | keyword t | name t | feature t | predicate t => exact .inl (word rfl h fun _ => rfl)
  | operator t => exact .inr (.inl ⟨t, List.mem_append.2 h, rfl⟩)
  | number t =>
    obtain ⟨c, cs, he, hc⟩ := h.head
    refine .inr (.inr (.inr fun c' hc' => ?_))
    obtain rfl : c = c' := by simpa [source, he] using hc'
    refine ⟨?_, fun hc' => ?_⟩
    · cases hn : Text.isNameStart c with
      | false => rfl
      | true => exact absurd (isDigit_of_isNameStart hn) (by simp [hc])
    · subst hc'
      exact absurd hc (by decide)
  | literal t =>
    rcases h with h | ⟨s, rfl⟩
    · exact .inl (word rfl h fun _ => rfl)
    · refine .inr (.inr (.inr fun c hc => ?_))
      obtain rfl : '\'' = c := by simpa [source, Literal.quote] using hc
      decide
  | comment | lineBreak => cases hl
  | openParen | closeParen | openBracket | closeBracket =>
    refine .inr (.inr (.inr fun c hc => ?_))
    obtain rfl := Option.some.inj hc
    decide

private theorem eq_of_word_prefix {w : List Char} (hw : ∀ c ∈ w, Text.isNameChar c = true)
    {t r s : List Char}
    (ht : ∀ c ∈ t, Text.isNameChar c = true) (hr : ∀ c ∈ r.head?, Text.isNameChar c = false)
    (h : t ++ r = w ++ ':' :: s) : t = w ∧ r = ':' :: s := by
  have hcolon : ∀ c ∈ (':' :: s).head?, Text.isNameChar c = false := by
    rintro c hc
    obtain rfl : ':' = c := by simpa using hc
    decide
  have he : t = w := by
    rw [← takeWhile_append_of_head ht hr, h, takeWhile_append_of_head hw hcolon]
  subst he
  exact ⟨rfl, List.append_cancel_left h⟩

private theorem Mark.not_operator_of_directive {w : String} (hw : w ∈ Mark.directives) {t : String}
    (ht : t ∈ Mark.signs ++ Mark.infixes) (r s : List Char) :
    t.toList ++ r ≠ w.toList ++ ':' :: s := by
  have hall : ∀ w ∈ Mark.directives, ∀ t ∈ Mark.signs ++ Mark.infixes,
      ¬t.toList <+: w.toList ∧ ¬w.toList <+: t.toList := by decide +kernel
  intro he
  obtain ⟨h₁, h₂⟩ := hall w hw t ht
  rcases List.prefix_or_prefix_of_prefix ⟨r, he⟩ (List.prefix_append _ _) with h | h
  · exact h₁ h
  · exact h₂ h

private theorem Mark.chars_of_directive {w : String} (hw : w ∈ Mark.directives) :
    ∃ c cs, w.toList = c :: cs ∧ Text.isNameStart c = true ∧
      ∀ x ∈ w.toList, Text.isNameChar x = true := by
  simp only [Mark.directives, List.mem_cons, List.not_mem_nil, or_false] at hw
  rcases hw with rfl | rfl | rfl <;>
    exact ⟨_, _, rfl, by decide, List.all_eq_true.1 (by decide)⟩

/-- No line of a layout starts like a line of a document's own. -/
theorem IsLayoutLine.not_directive {ms : List Mark} (h : IsLayoutLine ms) {w : String}
    (hw : w ∈ Mark.directives) (s : List Char) :
    Style.source.text ms ≠ w.toList ++ ':' :: ':' :: s := by
  obtain ⟨c, cs, hwc, hc, hchars⟩ := Mark.chars_of_directive hw
  intro he
  obtain ⟨⟨m, ms, rfl, -, hdirective⟩, -⟩ := h.1
  have he : m.source ++ Style.source.text ms = w.toList ++ ':' :: ':' :: s := he
  rcases h.2 with ⟨t, ht, -⟩ | hl
  · obtain ⟨rfl, -⟩ := List.cons.inj ht
    rw [hwc] at he
    obtain rfl : '#' = c := (List.cons.inj he).1
    exact absurd hc (by decide)
  · have hsound := List.forall_mem_cons.1 hl.sound
    have hline := List.forall_mem_cons.1 hl.inLine
    rcases hsound.1.cases_word hline.1 with ⟨t, ht, hword, hends⟩ | ⟨t, ht, rfl⟩ | rfl | hhead
    · -- the first mark is the word itself, and so a colon follows it
      obtain ⟨c', cs', htc, hc', hcs'⟩ := hword
      have hchars' : ∀ x ∈ t.toList, Text.isNameChar x = true := by
        rw [htc]
        exact List.forall_mem_cons.2 ⟨isNameChar_of_isNameStart hc', hcs'⟩
      have hnext : ∀ x ∈ (Style.source.text ms).head?, Text.isNameChar x = false := by
        rw [← text_kept_of_sound hsound.2]
        exact fun x hx => hends x (hl.parted [] m ms rfl x hx)
      rw [ht] at he
      obtain ⟨htw, hrest⟩ := eq_of_word_prefix hchars hchars' hnext he
      have hdir : m.isDirective = true :=
        List.any_eq_true.2 ⟨w, hw, by rw [ht, htw]; exact beq_self_eq_true _⟩
      cases ms with
      | nil => exact absurd hrest nofun
      | cons m' ms =>
        obtain ⟨c₁, cs₁, hk⟩ :=
          List.exists_cons_of_ne_nil (Mark.kept_ne_nil (hsound.2 m' (by simp)))
        rw [Mark.kept_eq_source (hsound.2 m' (by simp))] at hk
        have hrest : m'.source ++ Style.source.text ms = ':' :: ':' :: s := hrest
        rw [hk] at hrest
        obtain rfl : c₁ = ':' := (List.cons.inj hrest).1
        rcases (hsound.2 m' (by simp)).cases_word (hline.2 m' (by simp)) with
          ⟨t', ht', ⟨c', cs', hword, hstart, -⟩, -⟩ | ⟨t', ht', rfl⟩ | rfl | hhead
        · rw [ht', hword] at hk
          obtain rfl : c' = ':' := (List.cons.inj hk).1
          exact absurd hstart (by decide)
        · have hall : ∀ t ∈ Mark.signs ++ Mark.infixes, t.toList.head? ≠ some ':' := by
            decide +kernel
          exact hall t' ht' (by rw [show t'.toList = _ from hk]; rfl)
        · exact hdirective hdir rfl
        · exact (hhead ':' (by rw [hk]; rfl)).2 rfl
    · exact Mark.not_operator_of_directive hw ht _ _ he
    · rw [hwc] at he
      obtain rfl : ':' = c := (List.cons.inj he).1
      exact absurd hc (by decide)
    · obtain ⟨c', cs', hk⟩ := List.exists_cons_of_ne_nil (Mark.kept_ne_nil hsound.1)
      rw [Mark.kept_eq_source hsound.1] at hk
      rw [hk, hwc] at he
      obtain rfl : c' = c := (List.cons.inj he).1
      exact absurd hc (by simp [(hhead c' (by rw [hk]; rfl)).1])

/-- No line of a layout ends a paragraph, wherever it is moved to. -/
theorem IsLayoutLine.not_endsParagraph {ms : List Mark} (h : IsLayoutLine ms) {pad : List Char}
    (hpad : ∀ c ∈ pad, Text.isBlank c = true) :
    Document.endsParagraph (pad ++ Style.source.text ms) = false := by
  obtain ⟨c, cs, hs, hc, hstar⟩ := h.head
  have htrim : Text.trimStart (pad ++ Style.source.text ms) = Style.source.text ms := by
    rw [Text.trimStart_append hpad, hs, Text.trimStart_cons hc]
  have hdir (w : String) (hw : w ∈ Mark.directives) :
      (w.toList ++ [':', ':']).isPrefixOf (Style.source.text ms) = false := by
    rw [← Bool.not_eq_true, List.isPrefixOf_iff_prefix]
    rintro ⟨s, hp⟩
    refine h.not_directive hw s ?_
    rw [← hp, List.append_assoc]
    rfl
  have hbullet (s : List Char) : ('*' :: s).isPrefixOf (Style.source.text ms) = false := by
    rw [hs]
    simp [List.isPrefixOf, Ne.symm hstar]
  have hrule : (Style.source.text ms == ['-', '-']) = false := by
    rw [beq_eq_false_iff_ne]
    intro he
    rcases h.2 with ⟨t, rfl, ht⟩ | hl
    · exact absurd (List.cons.inj he).1 (by decide)
    · obtain ⟨s, c, hlast, -, hne⟩ := h.1.getLast? hl.inLine
      have := congrArg List.getLast? (hlast.symm.trans he)
      rw [List.getLast?_concat] at this
      exact hne (Option.some.inj this)
  have h₁ : "ifdef::".toList.isPrefixOf _ = false := hdir "ifdef" (by decide)
  have h₂ : "ifndef::".toList.isPrefixOf _ = false := hdir "ifndef" (by decide)
  have h₃ : "endif::".toList.isPrefixOf _ = false := hdir "endif" (by decide)
  have h₄ : "****".toList.isPrefixOf _ = false := hbullet "***".toList
  have h₅ : Paragraph.bullet.isPrefixOf _ = false := hbullet [' ']
  have h₆ : (Style.source.text ms == "--".toList) = false := hrule
  have hne : (Style.source.text ms).isEmpty = false := by rw [hs]; rfl
  simp only [Document.endsParagraph, Document.isBullet, htrim, hne, h₁, h₂, h₃, h₄, h₅, h₆,
    Bool.or_false]

end ValidUsage
