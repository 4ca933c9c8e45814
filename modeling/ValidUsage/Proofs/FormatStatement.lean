import ValidUsage.Proofs.Misread
import ValidUsage.Proofs.PrepareLayout
import ValidUsage.Proofs.ScanSound
import ValidUsage.Proofs.SourceRoundTrip
import ValidUsage.Proofs.Unplaced

/-!
# Laying out one statement of a document

A paragraph whose statement is laid out is again a codified statement, with the same anchor. Its
text is read as the same statement up to positions, and laying it out again changes nothing.
-/

namespace ValidUsage

namespace VuParagraph

variable {p : VuParagraph} {file : String} {L : List (List Char)}

/-- The text of a paragraph as it is read. -/
def prepared (p : VuParagraph) : Paragraph.Prepared := Paragraph.prepare p.vuLines

/-- The statement of a paragraph when it is read. -/
theorem vu_eq_ok_iff {v : Vu} : p.vu file = .ok v ↔ ∃ b, parse p.prepared.text = .ok b ∧
    v = ⟨p.prepared.text, b, none, ⟨file, p.vuLine, p.prepared.indent⟩⟩ := Vu.ofText_eq_ok_iff

/-- The statement of a paragraph and the lines that it is laid out in. -/
theorem formatted_eq_ok_iff : p.formatted file = .ok L ↔
    ∃ b b', parse p.prepared.text = .ok b ∧ Block.ofText b.source = .ok b' ∧
      Block.isSame b' b = true ∧ L = p.layout b.source p.prepared.indent := by
  unfold formatted
  cases hv : p.vu file with
  | error e =>
    refine iff_of_false nofun ?_
    rintro ⟨b, b', hb, -⟩
    rw [vu_eq_ok_iff.2 ⟨b, hb, rfl⟩] at hv
    exact absurd hv nofun
  | ok v =>
    obtain ⟨b, hb, rfl⟩ := vu_eq_ok_iff.1 hv
    simp only [bind, Except.bind, Block.checked]
    cases hfault : b.fault? b.source .source with
    | some fault =>
      refine iff_of_false nofun ?_
      rintro ⟨b₁, b', hb₁, hb', hsame, -⟩
      obtain rfl : b = b₁ := Except.ok.inj (hb.symm.trans hb₁)
      rw [(Block.fault?_eq_none_iff rfl).2 ⟨b', hb', hsame⟩] at hfault
      exact absurd hfault nofun
    | none =>
      obtain ⟨b', hb', hsame⟩ := (Block.fault?_eq_none_iff rfl).1 hfault
      constructor
      · intro he
        cases he
        exact ⟨b, b', hb, hb', hsame, rfl⟩
      · rintro ⟨b₁, b₁', hb₁, -, -, rfl⟩
        obtain rfl : b = b₁ := Except.ok.inj (hb.symm.trans hb₁)
        rfl

/-- Whether the lines of a statement have no comments that they call themselves, and what is read
from them has no number with a fraction. -/
structure IsPlain (p : VuParagraph) : Prop where
  calls : ∀ l ∈ p.vuLines, ¬commentName.toList <:+: l
  whole : ∀ b, parse p.prepared.text = .ok b → ∀ q x, Expr.const q (.float x) ∉ b.walk

/-- The statement that a plain paragraph holds can be spelled. -/
theorem IsPlain.isSpelled (h : p.IsPlain) {b : Block} (hb : parse p.prepared.text = .ok b) :
    b.isSpelled (fun _ => false) = true := by
  have hgiven : b.IsGiven true :=
    isGiven_of_parse (fun _ => Paragraph.callsComments_prepare h.calls) hb
  exact hgiven.isSpelled fun q x hx => absurd hx (h.whole b hb q x)

/-- If it is laid out, it is read back, comments included. -/
theorem IsPlain.unplaced_eq (h : p.IsPlain) {b b' : Block} (hb : parse p.prepared.text = .ok b)
    (hb' : Block.ofText b.source = .ok b') (hsame : Block.isSame b' b = true) :
    b'.unplaced = b.unplaced := by
  have hw := Block.isWritable_of_isSame Binary64.isWritten_of_none
    (h.isSpelled hb) hb' hsame
  obtain ⟨b'', hb'', he⟩ := Block.ofText_layout Binary64.isWritten_of_none hw
  rw [hb'] at hb''
  cases hb''
  exact he

/-! ## The lines around a statement -/

/-- Whether a text is an anchor of a statement. -/
structure IsAnchor (a : List Char) : Prop where
  opens : "[[".toList.isPrefixOf a = true
  marked : Text.contains Document.anchorMark a = true
  trimmed : Text.trim a = a

/-- An anchor starts with a square bracket. -/
theorem IsAnchor.head {a : List Char} (h : IsAnchor a) : ∃ r, a = '[' :: r := by
  obtain ⟨r, hr⟩ := List.isPrefixOf_iff_prefix.1 h.opens
  exact ⟨'[' :: r, hr.symm⟩

/-- Whether the lines before the text of a statement are its anchor and its tag. -/
structure IsFramed (p : VuParagraph) : Prop where
  start : p.start = if p.anchor.isSome then 2 else 1
  anchor : ∀ a ∈ p.anchor, IsAnchor a
  newline : ∀ a ∈ p.anchor, '\n' ∉ a

/-- The lines before the text of a statement when it is laid out. -/
def frame (p : VuParagraph) (indent : Nat) : List (List Char) :=
  let bullet := List.replicate (indent - blockIndent) ' ' ++ Paragraph.bullet
  match p.anchor with
  | some anchor => [bullet ++ anchor, List.replicate indent ' ' ++ Paragraph.tag]
  | none => [bullet ++ Paragraph.tag]

/-- A paragraph is its frame, and the lines of its statement further in. -/
theorem layout_eq (p : VuParagraph) (source : List Char) (indent : Nat) :
    p.layout source indent = p.frame (max indent blockIndent) ++
      (Text.lines source).map (List.replicate (max indent blockIndent) ' ' ++ ·) := rfl

private theorem IsFramed.length_frame (h : p.IsFramed) (indent : Nat) :
    (p.frame indent).length = p.start := by
  rw [h.start, frame]
  cases p.anchor <;> rfl

/-- A bullet in front of what is not blank. -/
theorem unbullet_bullet (n : Nat) (s : List Char) :
    Paragraph.unbullet (List.replicate n ' ' ++ Paragraph.bullet ++ s) =
      List.replicate (n + 2) ' ' ++ s := by
  have hb : Text.isBlank '*' = false := by decide
  have hlead : Text.lead (List.replicate n ' ' ++ (Paragraph.bullet ++ s)) = List.replicate n ' ' :=
    Text.lead_blanks n hb (' ' :: s)
  have hstart : Text.trimStart (List.replicate n ' ' ++ (Paragraph.bullet ++ s)) =
      Paragraph.bullet ++ s := by
    rw [Text.trimStart_append Text.isBlank_of_mem_replicate]
    exact Text.trimStart_cons hb (' ' :: s)
  rw [List.append_assoc, Paragraph.unbullet_of_bullet hstart, hlead, Text.byteLength_blanks]

/-- Spaces in front of a line do not count where it is trimmed. -/
theorem trim_blanks (n : Nat) (s : List Char) :
    Text.trim (List.replicate n ' ' ++ s) = Text.trim s := by
  rw [Text.trim, Text.trimStart_append Text.isBlank_of_mem_replicate, Text.trim]

private theorem isTag_blanks (n : Nat) :
    Paragraph.isTag (List.replicate n ' ' ++ Paragraph.tag) = true := by
  rw [Paragraph.isTag, trim_blanks]
  decide

private theorem isTag_bullet (n : Nat) :
    Paragraph.isTag (List.replicate n ' ' ++ Paragraph.bullet ++ Paragraph.tag) = true := by
  rw [Paragraph.isTag, List.append_assoc, trim_blanks]
  decide

private theorem anchor?_bullet_anchor (n : Nat) {a : List Char} (h : IsAnchor a) :
    Document.anchor? (List.replicate n ' ' ++ Paragraph.bullet ++ a) = some a := by
  rw [Document.anchor?, unbullet_bullet, trim_blanks, h.trimmed]
  simp only [h.opens, h.marked, Bool.and_self, if_true]

private theorem anchor?_bullet_tag (n : Nat) :
    Document.anchor? (List.replicate n ' ' ++ Paragraph.bullet ++ Paragraph.tag) = none := by
  rw [Document.anchor?, unbullet_bullet, trim_blanks]
  decide

/-- The lines of a statement that is laid out are a codified statement unless there are none. -/
theorem IsFramed.codified?_frame (h : p.IsFramed) (n : Nat) (lines : List (List Char)) (k : Nat)
    (api : Option String) (macros : Table String) :
    Document.codified? k api macros (p.frame n ++ lines) =
      if lines = [] then none
      else some ⟨k, p.frame n ++ lines, p.anchor, p.start, api, macros⟩ := by
  have hstart := h.start
  cases ha : p.anchor with
  | none =>
    have hframe : p.frame n = [List.replicate (n - blockIndent) ' ' ++ Paragraph.bullet ++
      Paragraph.tag] := by rw [frame, ha]
    rw [ha] at hstart
    have hanchor := anchor?_bullet_tag (n - blockIndent)
    have htag := isTag_bullet (n - blockIndent)
    rw [Document.codified?, hframe]
    simp only [List.cons_append, List.nil_append, List.head?_cons, Option.bind_some, hanchor,
      Option.isSome_none, Bool.false_eq_true, if_false, List.getElem?_cons_zero, Option.any_some,
      htag, Bool.true_and, List.length_cons, decide_eq_true_eq]
    cases lines with
    | nil => rfl
    | cons l ls => simp [hstart]
  | some a =>
    have hframe : p.frame n = [List.replicate (n - blockIndent) ' ' ++ Paragraph.bullet ++ a,
      List.replicate n ' ' ++ Paragraph.tag] := by rw [frame, ha]
    rw [ha] at hstart
    have hanchor := anchor?_bullet_anchor (n - blockIndent) (h.anchor a ha)
    have htag := isTag_blanks n
    rw [Document.codified?, hframe]
    simp only [List.cons_append, List.nil_append, List.head?_cons, Option.bind_some, hanchor,
      Option.isSome_some, if_true, List.getElem?_cons_succ, List.getElem?_cons_zero,
      Option.any_some, htag, Bool.true_and, List.length_cons, decide_eq_true_eq]
    cases lines with
    | nil => rfl
    | cons l ls => simp [hstart]

private theorem mem_of_mem_unbullet {line : List Char} {c : Char}
    (h : c ∈ Paragraph.unbullet line) :
    c ∈ line ∨ c = ' ' := by
  by_cases hb : Paragraph.bullet <+: Text.trimStart line
  · obtain ⟨rest, hrest⟩ := hb
    rw [Paragraph.unbullet_of_bullet hrest.symm] at h
    rcases List.mem_append.1 h with h | h
    · exact .inr (List.eq_of_mem_replicate h)
    · have hmem : c ∈ Text.trimStart line := hrest ▸ List.mem_append_right _ h
      exact .inl ((Text.trimStart_suffix line).subset hmem)
  · rw [Paragraph.unbullet_of_not hb] at h
    exact .inl h

private theorem isAnchor_of_anchor? {line a : List Char} (h : Document.anchor? line = some a) :
    IsAnchor a ∧ ('\n' ∉ line → '\n' ∉ a) := by
  unfold Document.anchor? at h
  dsimp only at h
  split at h
  · rename_i hc
    cases h
    obtain ⟨ho, hm⟩ := Bool.and_eq_true_iff.1 hc
    refine ⟨⟨ho, hm, Text.trim_trim _⟩, fun hn hmem => ?_⟩
    rcases mem_of_mem_unbullet ((Text.trim_infix _).subset hmem) with h | h
    · exact hn h
    · exact absurd h (by decide)
  · exact absurd h nofun

/-- A codified statement is framed, and holds the lines that it was found in. -/
theorem isFramed_of_codified? {k : Nat} {api : Option String} {macros : Table String}
    {lines : List (List Char)} (hn : ∀ l ∈ lines, '\n' ∉ l)
    (h : Document.codified? k api macros lines = some p) :
    p.IsFramed ∧ p.line = k ∧ p.lines = lines ∧ p.api = api ∧ p.macros = macros ∧ lines ≠ [] := by
  unfold Document.codified? at h
  dsimp only at h
  rw [Option.ite_none_right_eq_some] at h
  obtain ⟨hc, he⟩ := h
  cases he
  have hanchor : ∀ a ∈ lines.head?.bind Document.anchor?, IsAnchor a ∧ '\n' ∉ a := by
    intro a ha
    obtain ⟨line, hline, ha⟩ := Option.bind_eq_some_iff.1 ha
    obtain ⟨hanchor, hnewline⟩ := isAnchor_of_anchor? ha
    exact ⟨hanchor, hnewline (hn line (List.mem_of_mem_head? hline))⟩
  refine ⟨⟨?_, fun a ha => (hanchor a ha).1, fun a ha => (hanchor a ha).2⟩, rfl, rfl, rfl, rfl, ?_⟩
  · cases lines.head?.bind Document.anchor? <;> rfl
  · rintro rfl
    simp at hc

end VuParagraph

/-! ## Lines that a document reads -/

namespace Document

/-- Whether a line opens a bullet paragraph and is nothing else. -/
structure OpensParagraph (line : List Char) : Prop where
  definition : definition? line = none
  page : page? line = none
  bullet : isBullet line = true

/-- A bullet ends the paragraph before it. -/
theorem OpensParagraph.ends {line : List Char} (h : OpensParagraph line) :
    endsParagraph line = true := by
  rw [endsParagraph, h.bullet]
  simp

private theorem opensParagraph_bullet (n : Nat) (s : List Char) :
    OpensParagraph (List.replicate n ' ' ++ Paragraph.bullet ++ s) := by
  obtain ⟨c, cs, he, hc⟩ : ∃ c cs, List.replicate n ' ' ++ Paragraph.bullet ++ s = c :: cs ∧
      (c = ' ' ∨ c = '*') := by
    cases n with
    | zero => exact ⟨_, _, rfl, .inr rfl⟩
    | succ n => exact ⟨_, _, rfl, .inl rfl⟩
  refine ⟨?_, ?_, ?_⟩
  · have hstrip : Text.stripPrefix? [':'] (c :: cs) = none := by
      rcases hc with rfl | rfl <;> simp [Text.stripPrefix?, List.isPrefixOf]
    rw [he, definition?, hstrip]
    rfl
  · have hopen : "[open,".toList.isPrefixOf (c :: cs) = false := by
      rcases hc with rfl | rfl <;> simp [List.isPrefixOf]
    rw [he, page?, hopen]
    rfl
  · have hstart : Text.trimStart (Paragraph.bullet ++ s) = Paragraph.bullet ++ s :=
      Text.trimStart_cons (by decide) (' ' :: s)
    rw [isBullet, List.append_assoc, Text.trimStart_append Text.isBlank_of_mem_replicate,
      hstart]
    simp [Paragraph.bullet, List.isPrefixOf]

private theorem not_endsParagraph_tag (n : Nat) :
    endsParagraph (List.replicate n ' ' ++ Paragraph.tag) = false := by
  have hstart : Text.trimStart (List.replicate n ' ' ++ Paragraph.tag) = Paragraph.tag := by
    rw [Text.trimStart_append Text.isBlank_of_mem_replicate]
    decide
  rw [endsParagraph, isBullet, hstart]
  decide

end Document

namespace VuParagraph

open Document (OpensParagraph)

variable {p : VuParagraph} {file : String} {L : List (List Char)}

private theorem isLine_append {u s : List Char} (hu : '\n' ∉ u) (h : Text.IsLine s) (hne : s ≠ []) :
    Text.IsLine (u ++ s) := by
  obtain ⟨c, s, rfl⟩ := List.exists_cons_of_ne_nil hne
  refine ⟨?_, ?_⟩
  · rw [List.mem_append, not_or]
    exact ⟨hu, h.newline⟩
  · rw [List.getLast?_append, List.getLast?_cons, Option.some_or, ← List.getLast?_cons]
    exact h.carriage

/-- An anchor stands on a line of its own. -/
theorem IsAnchor.isLine {a : List Char} (h : IsAnchor a) (hn : '\n' ∉ a) : Text.IsLine a := by
  refine ⟨hn, fun hlast => ?_⟩
  have htrim := h.trimmed
  rw [Text.trim] at htrim
  rcases Text.trimEnd_eq_nil_or_concat (Text.trimStart a) with he | ⟨s, c, he, hc⟩
  · obtain ⟨r, rfl⟩ := h.head
    cases htrim.symm.trans he
  · rw [← htrim, he, List.getLast?_concat] at hlast
    obtain rfl : c = '\r' := Option.some.inj hlast
    exact absurd hc (by decide)

/-- The lines of a frame are lines; the first one opens a paragraph that the others do not end. -/
theorem IsFramed.frame_lines (h : p.IsFramed) (n : Nat) : ∃ first rest, p.frame n = first :: rest ∧
    OpensParagraph first ∧ (∀ l ∈ rest, Document.endsParagraph l = false) ∧
      ∀ l ∈ first :: rest, Text.IsLine l := by
  have hbullet (k : Nat) : '\n' ∉ List.replicate k ' ' ++ Paragraph.bullet := by
    rw [List.mem_append, not_or]
    exact ⟨Paragraph.not_mem_blanks k, by decide⟩
  have htag : Text.IsLine Paragraph.tag := ⟨by decide, by decide⟩
  cases ha : p.anchor with
  | none =>
    refine ⟨_, [], by rw [frame, ha], Document.opensParagraph_bullet _ _, nofun, fun l hl => ?_⟩
    rw [List.mem_singleton.1 hl]
    exact isLine_append (hbullet _) htag (by decide)
  | some a =>
    refine ⟨_, _, by rw [frame, ha], Document.opensParagraph_bullet _ _, fun l hl => ?_,
      fun l hl => ?_⟩
    · rw [List.mem_singleton.1 hl]
      exact Document.not_endsParagraph_tag n
    · rcases List.mem_cons.1 hl with rfl | hl
      · obtain ⟨r, hr⟩ := (h.anchor a ha).head
        exact isLine_append (hbullet _) ((h.anchor a ha).isLine (h.newline a ha)) (by simp [hr])
      · rw [List.mem_singleton.1 hl]
        exact isLine_append (Paragraph.not_mem_blanks n) htag (by decide)

/-- The lines of a statement that is laid out below its frame. -/
theorem lines_source {fractions : Binary64 → Bool} (hf : ∀ x, fractions x = true → x.IsWritten)
    {b : Block} (h : b.isSpelled fractions = true) (n : Nat) :
    ∀ l ∈ (Text.lines b.source).map (List.replicate n ' ' ++ ·),
      Document.endsParagraph l = false ∧ Text.IsLine l := by
  by_cases hne : b = []
  · subst hne
    exact nofun
  intro l hl
  obtain ⟨u, hu, rfl⟩ := List.mem_map.1 hl
  obtain ⟨hlines, hisLine⟩ := Block.lines_source hf h hne
  rw [hlines] at hu
  obtain ⟨ml, hml, rfl⟩ := List.mem_map.1 hu
  have hlayout := Block.isLayoutLine hf h hne ml hml
  have hnonempty : ml.text .source ≠ [] := by
    obtain ⟨c, cs, hs, -⟩ := hlayout.head
    simp [MarkLine.text, hs]
  refine ⟨?_, isLine_append (Paragraph.not_mem_blanks n) (hisLine _ hu) hnonempty⟩
  rw [MarkLine.text, ← List.append_assoc]
  refine hlayout.not_endsParagraph fun c hc => ?_
  rcases List.mem_append.1 hc with hc | hc
  · exact Text.isBlank_of_mem_replicate c hc
  · exact Text.isBlank_of_mem_replicate c hc

/-! ## A statement that is laid out -/

/-- A paragraph that is moved to other lines of a document and has other lines. -/
def moved (p : VuParagraph) (line : Nat) (lines : List (List Char)) : VuParagraph :=
  { p with line := line, lines := lines }

/-- Laying out depends on the text of a statement and on its anchor only. -/
theorem formatted_congr {p' : VuParagraph} {file' : String} (ha : p'.anchor = p.anchor)
    (hv : p'.vuLines = p.vuLines) (h : p.formatted file = .ok L) : p'.formatted file' = .ok L := by
  have hprepared : p'.prepared = p.prepared := congrArg Paragraph.prepare hv
  have hlayout (s : List Char) (n : Nat) : p'.layout s n = p.layout s n := by
    rw [layout_eq, layout_eq, frame, frame, ha]
  obtain ⟨b, b', hb, hb', hsame, rfl⟩ := formatted_eq_ok_iff.1 h
  refine formatted_eq_ok_iff.2 ⟨b, b', ?_, hb', hsame, ?_⟩
  · rw [hprepared, hb]
  · rw [hprepared, hlayout]

/-- A statement that is laid out, and is not empty, is read again from its lines as the same
statement, and laid out in the same lines. -/
theorem formatted_moved (h : p.IsPlain) (hframed : p.IsFramed) {b b' : Block}
    (hb : parse p.prepared.text = .ok b) (hb' : Block.ofText b.source = .ok b')
    (hsame : Block.isSame b' b = true) (hne : b ≠ []) (line : Nat) (file' : String) :
    let p' := p.moved line (p.layout b.source p.prepared.indent)
    (∃ v', p'.vu file' = .ok v' ∧ v'.raw.unplaced = b.unplaced) ∧
      p'.formatted file' = .ok (p.layout b.source p.prepared.indent) := by
  intro p'
  have hspelled := h.isSpelled hb
  have hunplaced := h.unplaced_eq hb hb' hsame
  have hprepared : p'.prepared =
      ⟨Paragraph.keepComments b.source, max p.prepared.indent blockIndent⟩ := by
    have hdrop : p'.vuLines = (Text.lines b.source).map
        (List.replicate (max p.prepared.indent blockIndent) ' ' ++ ·) := by
      show (p.layout b.source p.prepared.indent).drop p.start = _
      rw [layout_eq, ← hframed.length_frame, List.drop_left]
    rw [prepared, hdrop]
    exact Block.prepare_lines Binary64.isWritten_of_none hspelled hne _
  have hread : parse p'.prepared.text = .ok b' := by
    rw [hprepared]
    exact hb'
  refine ⟨⟨_, vu_eq_ok_iff.2 ⟨b', hread, rfl⟩, hunplaced⟩, ?_⟩
  have hsource : b'.source = b.source := Block.source_eq_of_unplaced hunplaced
  refine formatted_eq_ok_iff.2 ⟨b', b', hread, by rw [hsource, hb'], ?_, ?_⟩
  · exact beq_self_eq_true _
  · rw [hprepared, hsource, layout_eq, layout_eq, Nat.max_assoc, Nat.max_self]
    rfl

end VuParagraph
end ValidUsage
