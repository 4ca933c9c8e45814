import ValidUsage.Proofs.CommentCalls
import ValidUsage.Proofs.LayoutLines

/-!
# Preparing a layout

The lines of a layout that are moved to the indentation of a paragraph are made ready for reading by
moving them back: the bullet is none of theirs, the common indentation is that of the first line,
and of the trailing blanks only those of empty comments are lost, which comments do not keep anyway.
-/

namespace ValidUsage

open Paragraph

private theorem Text.dropBytes?_blanks (n : Nat) (s : List Char) :
    dropBytes? n (List.replicate n ' ' ++ s) = some s := by
  induction n with
  | zero => rw [dropBytes?.eq_def]; rfl
  | succ n ih =>
    have hsize : ' '.utf8Size = 1 := by decide
    rw [List.replicate_succ, List.cons_append, dropBytes?, hsize, if_pos (by omega)]
    exact ih

/-- Each space is one byte. -/
theorem Text.byteLength_blanks (n : Nat) : byteLength (List.replicate n ' ') = n := by
  induction n with
  | zero => rfl
  | succ n ih =>
    have hsize : ' '.utf8Size = 1 := by decide
    rw [List.replicate_succ, byteLength, hsize, ih]
    omega

/-- The blanks in front of a line end where something else stands. -/
theorem Text.lead_blanks (n : Nat) {c : Char} (hc : isBlank c = false) (s : List Char) :
    lead (List.replicate n ' ' ++ c :: s) = List.replicate n ' ' := by
  refine takeWhile_append_of_head isBlank_of_mem_replicate fun c' hc' => ?_
  obtain rfl : c = c' := by simpa using hc'
  exact hc

namespace Paragraph

/-- A line without a bullet stays as it is. -/
theorem unbullet_of_head (n : Nat) {c : Char} (hc : Text.isBlank c = false) (hstar : c ≠ '*')
    (s : List Char) :
    unbullet (List.replicate n ' ' ++ c :: s) = List.replicate n ' ' ++ c :: s := by
  refine unbullet_of_not ?_
  rw [Text.trimStart_append Text.isBlank_of_mem_replicate, Text.trimStart_cons hc]
  exact not_startsWith_bullet hstar s

/-- The common indentation of lines of which the first is indented least. -/
theorem commonIndent_eq {n : Nat} {line : List Char} {lines : List (List Char)}
    (h : ∀ l ∈ line :: lines, ∃ k c s, l = List.replicate (n + k) ' ' ++ c :: s ∧
      Text.isBlank c = false)
    (hline : ∃ c s, line = List.replicate n ' ' ++ c :: s ∧ Text.isBlank c = false) :
    commonIndent (line :: lines) = n := by
  have hwidth {l : List Char} {k : Nat} {c : Char} {s : List Char}
      (hl : l = List.replicate k ' ' ++ c :: s) (hc : Text.isBlank c = false) :
      (!(Text.trim l).isEmpty) = true ∧ Text.byteLength (Text.lead l) = k := by
    subst hl
    rw [Text.lead_blanks k hc, Text.byteLength_blanks, Text.trim,
      Text.trimStart_append Text.isBlank_of_mem_replicate, Text.trimStart_cons hc]
    cases ht : Text.trimEnd (c :: s) with
    | nil => exact absurd ht (Text.trimEnd_cons_ne_nil hc s)
    | cons => exact ⟨rfl, rfl⟩
  have hfilter : (line :: lines).filter (fun l => !(Text.trim l).isEmpty) = line :: lines := by
    refine List.filter_eq_self.2 fun l hl => ?_
    obtain ⟨k, c, s, he, hc⟩ := h l hl
    exact (hwidth he hc).1
  have hmin : ((line :: lines).map fun l => Text.byteLength (Text.lead l)).min? = some n := by
    rw [List.min?_eq_some_iff]
    refine ⟨?_, fun w hw => ?_⟩
    · obtain ⟨c, s, he, hc⟩ := hline
      exact List.mem_map.2 ⟨line, List.mem_cons_self, (hwidth he hc).2⟩
    · obtain ⟨l, hl, rfl⟩ := List.mem_map.1 hw
      obtain ⟨k, c, s, he, hc⟩ := h l hl
      rw [(hwidth he hc).2]
      omega
  rw [commonIndent, hfilter]
  simp only [hmin, Option.getD_some]

end Paragraph

namespace Block

variable {fractions : Binary64 → Bool} {b : Block}

/-- The source text is that of the lines of a block. -/
theorem source_eq_join (b : Block) :
    b.source = Text.join ['\n'] (b.lines.map (MarkLine.text .source)) := by
  have htext : List.replicate 0 ' ' ++ Style.source.text ([] ++ b.layout) = _ :=
    text_linesFrom Style.keepsComments_source
  rw [Block.lines, ← htext]
  simp [source, Style.document, Style.source]

/-- The lines of the source text of a block. -/
theorem lines_source (hf : ∀ x, fractions x = true → x.IsWritten)
    (h : b.isSpelled fractions = true) (hne : b ≠ []) :
    Text.lines b.source = b.lines.map (MarkLine.text .source) ∧
      ∀ u ∈ b.lines.map (MarkLine.text .source), Text.IsLine u := by
  have hline : ∀ u ∈ b.lines.map (MarkLine.text .source), Text.IsLine u ∧ u ≠ [] := by
    intro u hu
    obtain ⟨l, hl, rfl⟩ := List.mem_map.1 hu
    have hl := isLayoutLine hf h hne l hl
    obtain ⟨c, cs, hs, -⟩ := hl.head
    have hisLine := hl.isLine
    rw [MarkLine.text, hs]
    rw [hs] at hisLine
    refine ⟨⟨?_, ?_⟩, by simp⟩
    · rw [List.mem_append, not_or]
      exact ⟨not_mem_blanks _, hisLine.newline⟩
    · rw [List.getLast?_append, List.getLast?_cons, Option.some_or, ← List.getLast?_cons]
      exact hisLine.carriage
  refine ⟨?_, fun u hu => (hline u hu).1⟩
  rw [source_eq_join]
  exact Text.lines_join (fun u hu => (hline u hu).1) fun hm => (hline [] hm).2 rfl

/-- The first line of a block is not indented. -/
theorem exists_lines (b : Block) : ∃ ms ls, b.lines = ⟨0, ms⟩ :: ls := by
  have hhead (n : Nat) (line ms : List Mark) : ∃ ms' ls, linesFrom n line ms = ⟨n, ms'⟩ :: ls := by
    induction ms generalizing line with
    | nil => exact ⟨_, _, rfl⟩
    | cons m ms ih =>
      cases hm : m.isBreak with
      | false =>
        rw [linesFrom_cons hm]
        exact ih _
      | true =>
        cases m with
        | lineBreak k => exact ⟨_, _, rfl⟩
        | _ => exact absurd hm nofun
  exact hhead 0 [] b.layout

/-- The lines of a layout are prepared to the same text at any indentation. -/
theorem prepare_lines (hf : ∀ x, fractions x = true → x.IsWritten)
    (h : b.isSpelled fractions = true) (hne : b ≠ []) (n : Nat) :
    Paragraph.prepare ((Text.lines b.source).map (List.replicate n ' ' ++ ·)) =
      ⟨Paragraph.keepComments b.source, n⟩ := by
  have hall := isLayoutLine hf h hne
  have htrim (l : MarkLine) (hl : l ∈ b.lines) :
      Text.trimEnd (List.replicate n ' ' ++ l.text .source) =
        List.replicate n ' ' ++ l.text .trimmed := by
    have hlayout := hall l hl
    have hcut : Text.trimEnd (Style.source.text l.marks) ≠ [] := by
      obtain ⟨c, cs, hs, -⟩ := hlayout.head_trimmed
      rw [hlayout.trimEnd, hs]
      exact List.cons_ne_nil _ _
    rw [MarkLine.text, ← List.append_assoc, Text.trimEnd_append_of_ne_nil hcut, hlayout.trimEnd,
      List.append_assoc]
    rfl
  have hlead (l : MarkLine) (hl : l ∈ b.lines) : ∃ c s,
      List.replicate n ' ' ++ l.text .trimmed = List.replicate (n + l.indent) ' ' ++ c :: s ∧
        Text.isBlank c = false ∧ c ≠ '*' := by
    obtain ⟨c, cs, hs, hc⟩ := (hall l hl).head_trimmed
    refine ⟨c, cs, ?_, hc⟩
    rw [MarkLine.text, hs, ← List.append_assoc, List.replicate_append_replicate]
  obtain ⟨ms, ls, hls⟩ := b.exists_lines
  have hunbulleted : Paragraph.unbulleted ((Text.lines b.source).map (List.replicate n ' ' ++ ·)) =
      b.lines.map (List.replicate n ' ' ++ MarkLine.text .trimmed ·) := by
    obtain ⟨c, s, hs, hc, hstar⟩ := hlead ⟨0, ms⟩ (by rw [hls]; exact List.mem_cons_self)
    rw [(lines_source hf h hne).1, hls]
    simp only [List.map_cons, List.map_map, Paragraph.unbulleted]
    rw [htrim ⟨0, ms⟩ (by rw [hls]; exact List.mem_cons_self)]
    refine List.cons_eq_cons.2 ⟨?_, List.map_congr_left fun l hl => ?_⟩
    · rw [hs]
      exact Paragraph.unbullet_of_head _ hc hstar s
    · exact htrim l (by rw [hls]; exact List.mem_cons_of_mem _ hl)
  have hindent : Paragraph.commonIndent
      (b.lines.map (List.replicate n ' ' ++ MarkLine.text .trimmed ·)) = n := by
    obtain ⟨c, s, hs, hc, -⟩ := hlead ⟨0, ms⟩ (by rw [hls]; exact List.mem_cons_self)
    rw [hls, List.map_cons]
    refine Paragraph.commonIndent_eq (fun l hl => ?_) ⟨c, s, hs, hc⟩
    obtain ⟨l', hl', rfl⟩ : ∃ l' ∈ b.lines, List.replicate n ' ' ++ l'.text .trimmed = l := by
      rw [hls]
      rcases List.mem_cons.1 hl with rfl | hl
      · exact ⟨_, List.mem_cons_self, rfl⟩
      · obtain ⟨l', hl', rfl⟩ := List.mem_map.1 hl
        exact ⟨l', List.mem_cons_of_mem _ hl', rfl⟩
    obtain ⟨c, s, hs, hc, -⟩ := hlead l' hl'
    exact ⟨_, c, s, hs, hc⟩
  have htext : List.replicate 0 ' ' ++ Style.trimmed.text ([] ++ b.layout) = _ :=
    text_linesFrom Style.keepsComments_trimmed
  have hkeep := keepComments_text Style.keepsComments_trimmed hf h
  rw [Paragraph.prepare, hunbulleted, hindent]
  simp only [List.map_map, Function.comp_def, Text.dropBytes?_blanks, Option.getD_some]
  rw [← keepComments_source hf h] at hkeep
  rw [← hkeep]
  exact congrArg (fun s => Prepared.mk (Paragraph.keepComments s) n) htext.symm

end Block

/-! ## The name of comments -/

namespace Text

private theorem infix_blanks {w : List Char} (hw : ' ' ∉ w) {n : Nat} {s : List Char}
    (h : w <:+: List.replicate n ' ' ++ s) : w <:+: s := by
  induction n with
  | zero => exact h
  | succ n ih =>
    rcases infix_beside (u := []) hw h with h | h
    · rw [List.infix_nil.1 h]
      exact List.nil_infix
    · exact ih h

/-- What is left behind some bytes is the end of a text. -/
theorem dropBytes?_suffix {n : Nat} {s r : List Char} (h : dropBytes? n s = some r) : r <:+ s := by
  induction s generalizing n with
  | nil =>
    cases n with
    | zero =>
      rw [dropBytes?] at h
      cases h
      exact List.suffix_rfl
    | succ n =>
      rw [dropBytes?] at h
      cases h
  | cons c s ih =>
    cases n with
    | zero =>
      rw [dropBytes?] at h
      cases h
      exact List.suffix_rfl
    | succ n =>
      rw [dropBytes?] at h
      split at h
      · exact (ih h).trans (List.suffix_cons c s)
      · cases h

/-- A text that has no line end occurs in a line if it occurs in lines that are joined. -/
theorem infix_of_infix_join {w : List Char} (hw : '\n' ∉ w) (hne : w ≠ [])
    {lines : List (List Char)} (h : w <:+: join ['\n'] lines) : ∃ l ∈ lines, w <:+: l := by
  induction lines with
  | nil => exact absurd (List.infix_nil.1 h) hne
  | cons l ls ih =>
    cases ls with
    | nil => exact ⟨l, List.mem_cons_self, by simpa [join, List.intercalate] using h⟩
    | cons l' ls =>
      rw [join_cons (List.cons_ne_nil _ _), List.append_assoc, List.singleton_append] at h
      rcases infix_beside hw h with h | h
      · exact ⟨l, List.mem_cons_self, h⟩
      · obtain ⟨l'', hl, h⟩ := ih h
        exact ⟨l'', List.mem_cons_of_mem _ hl, h⟩

end Text

namespace Paragraph

private theorem infix_of_infix_unbullet {w line : List Char} (hw : ' ' ∉ w)
    (h : w <:+: unbullet line) :
    w <:+: line := by
  by_cases hb : bullet <+: Text.trimStart line
  · obtain ⟨rest, hrest⟩ := hb
    rw [unbullet_of_bullet hrest.symm] at h
    have hsuffix : rest <:+ Text.trimStart line := ⟨bullet, hrest⟩
    exact (Text.infix_blanks hw h).trans (hsuffix.trans (Text.trimStart_suffix line)).isInfix
  · rwa [unbullet_of_not hb] at h

/-- A text that occurs in prepared lines before their comments are kept occurs in one of the
lines. -/
theorem callsComments_prepare {lines : List (List Char)}
    (h : ∀ l ∈ lines, ¬commentName.toList <:+: l) : CallsComments (prepare lines).text := by
  have hunbulleted : ∀ l ∈ unbulleted lines, ¬commentName.toList <:+: l := by
    cases lines with
    | nil => exact nofun
    | cons line lines =>
      obtain ⟨hline, hlines⟩ := List.forall_mem_cons.1 h
      refine List.forall_mem_cons.2 ⟨fun hi => hline ?_, fun l hl hi => ?_⟩
      · exact (infix_of_infix_unbullet (by decide) hi).trans (Text.trimEnd_prefix_self line).isInfix
      · obtain ⟨l', hl', rfl⟩ := List.mem_map.1 hl
        exact hlines l' hl' (hi.trans (Text.trimEnd_prefix_self l').isInfix)
  refine callsComments_keepComments fun hi => ?_
  obtain ⟨u, hu, hi⟩ := Text.infix_of_infix_join (by decide) (by decide) hi
  obtain ⟨l, hl, rfl⟩ := List.mem_map.1 hu
  cases hd : Text.dropBytes? (commonIndent (unbulleted lines)) l with
  | none =>
    rw [hd, Option.getD_none] at hi
    exact absurd (List.infix_nil.1 hi) (by decide)
  | some r =>
    rw [hd, Option.getD_some] at hi
    exact hunbulleted l hl (hi.trans (Text.dropBytes?_suffix hd).isInfix)

end Paragraph
end ValidUsage
