import Mathlib.Data.List.Forall2
import ValidUsage.Proofs.DocumentParts

/-!
# Laying out a document

The parts of a document that is laid out are those of the document: every codified statement is read
again as it was, up to positions, or still cannot be laid out and has the lines that it had. Only
a statement that reads as no statements at all is gone. Laying out such a document again changes
nothing.
-/

namespace ValidUsage

/-- Whether the statement of a paragraph reads as no statements at all. -/
def VuParagraph.readsEmpty (file : String) (p : VuParagraph) : Bool :=
  match p.vu file with
  | .ok v => v.raw.isEmpty
  | .error _ => false

namespace Document

open DocumentPart

/-- What a part is when its document is laid out and scanned again. -/
inductive Relays (file : String) : DocumentPart → DocumentPart → Prop
  | stays (lines : List (List Char)) : Relays file (.stays lines) (.stays lines)
  | laidOut {p : VuParagraph} {L : List (List Char)} {b : Block} (line : Nat)
    (h : p.formatted file = .ok L) (hb : parse p.prepared.text = .ok b) (hne : b ≠ []) :
    Relays file (.statement p) (.statement (p.moved line L))
  | emptied {p : VuParagraph} {L : List (List Char)} (h : p.formatted file = .ok L)
    (hb : parse p.prepared.text = .ok []) : Relays file (.statement p) (.stays L)
  | reported {p : VuParagraph} (line : Nat) (h : ∀ L, p.formatted file ≠ .ok L) :
    Relays file (.statement p) (.statement (p.moved line p.lines))

variable {line : Nat} {api : Option String} {macros : Table String} {lines : List (List Char)}
  {ps : List DocumentPart} {file : String} {p : VuParagraph}

/-- The lines of a statement are laid out below its frame, or stay. -/
theorem relaid_cases (file : String) (p : VuParagraph) :
    (∃ b, parse p.prepared.text = .ok b ∧
      p.formatted file = .ok (p.layout b.source p.prepared.indent) ∧
        relaid file p = p.layout b.source p.prepared.indent) ∨
    (∀ L, p.formatted file ≠ .ok L) ∧ relaid file p = p.lines := by
  cases h : p.formatted file with
  | error e => exact .inr ⟨nofun, by rw [relaid, h]⟩
  | ok L =>
    obtain ⟨b, b', hb, -, -, rfl⟩ := VuParagraph.formatted_eq_ok_iff.1 h
    exact .inl ⟨b, hb, rfl, by rw [relaid, h]⟩

private theorem codified?_moved (line line' : Nat) (api : Option String) (macros : Table String)
    (lines : List (List Char)) : codified? line' api macros lines =
      (codified? line api macros lines).map fun p => p.moved line' p.lines := by
  unfold codified?
  dsimp only
  rw [apply_ite (Option.map _)]
  rfl

/-- What ends a paragraph does so when it is laid out. -/
theorem Parts.endsParagraph (h : Parts line api macros lines ps) (hn : ∀ l ∈ lines, '\n' ∉ l)
    (hends : EndsParagraph lines) (file : String) :
    EndsParagraph (linesOf (relaid file) ps) := by
  cases h with
  | nil => exact nofun
  | definition => exact fun l hl => hends l hl
  | page => exact fun l hl => hends l hl
  | other => exact fun l hl => hends l hl
  | bullet => exact fun l hl => hends l hl
  | @statement _ _ _ first body rest ps p hf _ _ hc h =>
    have hn' := List.forall_mem_append.1 (List.forall_mem_cons.1 hn).2
    obtain ⟨hframed, -, hlines, -⟩ := VuParagraph.isFramed_of_codified?
      (List.forall_mem_cons.2 ⟨(List.forall_mem_cons.1 hn).1, hn'.1⟩) hc
    rw [linesOf_statement]
    rcases relaid_cases file p with ⟨b, -, -, hrelaid⟩ | ⟨-, hrelaid⟩
    · obtain ⟨first', rest', hframe, hfirst, -⟩ :=
        hframed.frame_lines (max p.prepared.indent blockIndent)
      rw [hrelaid, VuParagraph.layout_eq, hframe]
      intro l hl
      obtain rfl : first' = l := by simpa using hl
      exact hfirst.ends
    · rw [hrelaid, hlines]
      exact fun l hl => hends l hl

/-- A document that is laid out has the parts that it had. -/
theorem Parts.relays (h : Parts line api macros lines ps) (hn : ∀ l ∈ lines, Text.IsLine l)
    (hplain : ∀ p ∈ codified ps, p.IsPlain) (file : String) (line' : Nat) :
    (∃ ps', Parts line' api macros (linesOf (relaid file) ps) ps' ∧
      List.Forall₂ (Relays file) ps ps') ∧
      ∀ l ∈ linesOf (relaid file) ps, Text.IsLine l := by
  induction h generalizing line' with
  | nil => exact ⟨⟨[], .nil, .nil⟩, nofun⟩
  | definition hd _ ih =>
    obtain ⟨hn, hns⟩ := List.forall_mem_cons.1 hn
    obtain ⟨⟨ps', h', hrel⟩, hlines⟩ := ih hns hplain (line' + 1)
    exact ⟨⟨_, .definition hd h', .cons (.stays _) hrel⟩, List.forall_mem_cons.2 ⟨hn, hlines⟩⟩
  | page hd hp _ ih =>
    obtain ⟨hn, hns⟩ := List.forall_mem_cons.1 hn
    obtain ⟨⟨ps', h', hrel⟩, hlines⟩ := ih hns hplain (line' + 1)
    exact ⟨⟨_, .page hd hp h', .cons (.stays _) hrel⟩, List.forall_mem_cons.2 ⟨hn, hlines⟩⟩
  | other hd hp hb _ ih =>
    obtain ⟨hn, hns⟩ := List.forall_mem_cons.1 hn
    obtain ⟨⟨ps', h', hrel⟩, hlines⟩ := ih hns hplain (line' + 1)
    exact ⟨⟨_, .other hd hp hb h', .cons (.stays _) hrel⟩, List.forall_mem_cons.2 ⟨hn, hlines⟩⟩
  | @bullet line api macros first body rest ps hf hb hr hc h ih =>
    obtain ⟨hn, hns⟩ := List.forall_mem_cons.1 hn
    obtain ⟨hbody, hrest⟩ := List.forall_mem_append.1 hns
    obtain ⟨⟨ps', h', hrel⟩, hlines⟩ := ih hrest hplain (line' + (body.length + 1))
    have hends := h.endsParagraph (fun l hl => (hrest l hl).newline) hr file
    have hc' : codified? line' api macros (first :: body) = none := by
      rw [codified?_moved line, hc]
      rfl
    refine ⟨⟨_, .bullet hf hb hends hc' h', .cons (.stays _) hrel⟩, ?_⟩
    exact List.forall_mem_cons.2 ⟨hn, List.forall_mem_append.2 ⟨hbody, hlines⟩⟩
  | @statement line api macros first body rest ps p hf hb hr hc h ih =>
    obtain ⟨hn, hns⟩ := List.forall_mem_cons.1 hn
    obtain ⟨hbody, hrest⟩ := List.forall_mem_append.1 hns
    obtain ⟨hp, hps⟩ := List.forall_mem_cons.1 hplain
    have hends := h.endsParagraph (fun l hl => (hrest l hl).newline) hr file
    have hmem : ∀ l ∈ first :: body, '\n' ∉ l :=
      List.forall_mem_cons.2 ⟨hn.newline, fun l hl => (hbody l hl).newline⟩
    obtain ⟨hframed, -, hlines, hapi, hmacros, -⟩ := VuParagraph.isFramed_of_codified? hmem hc
    rw [linesOf_statement]
    rcases relaid_cases file p with ⟨b, hbread, hok, hrelaid⟩ | ⟨herror, hrelaid⟩
    · obtain ⟨first', rest', hframe, hfirst, hrest', hisLine⟩ :=
        hframed.frame_lines (max p.prepared.indent blockIndent)
      have hsource := VuParagraph.lines_source Binary64.isWritten_of_none (hp.isSpelled hbread)
        (max p.prepared.indent blockIndent)
      let n := max p.prepared.indent blockIndent
      let ls := (Text.lines b.source).map (List.replicate n ' ' ++ ·)
      have hlayout : p.layout b.source p.prepared.indent = first' :: (rest' ++ ls) := by
        rw [VuParagraph.layout_eq, hframe]
        rfl
      have hcodified := hframed.codified?_frame n ls line' api macros
      rw [hframe, List.cons_append] at hcodified
      have hbody' : ∀ l ∈ rest' ++ ls, Document.endsParagraph l = false :=
        List.forall_mem_append.2 ⟨hrest', fun l hl => (hsource l hl).1⟩
      obtain ⟨⟨ps', h', hrel⟩, hlines'⟩ := ih hrest hps (line' + ((rest' ++ ls).length + 1))
      have hall : ∀ l ∈ first' :: (rest' ++ ls) ++ linesOf (relaid file) ps, Text.IsLine l := by
        obtain ⟨hfirst', hrest'⟩ := List.forall_mem_cons.1 hisLine
        refine List.forall_mem_append.2 ⟨List.forall_mem_cons.2 ⟨hfirst', ?_⟩, hlines'⟩
        exact List.forall_mem_append.2 ⟨hrest', fun l hl => (hsource l hl).2⟩
      rw [hrelaid, hlayout]
      refine ⟨?_, hall⟩
      by_cases hne : b = []
      · subst hne
        have hls : ls = [] := rfl
        rw [if_pos hls] at hcodified
        have hempty := Relays.emptied hok hbread
        rw [hlayout] at hempty
        exact ⟨_, .bullet hfirst hbody' hends hcodified h', .cons hempty hrel⟩
      · have hls : ls ≠ [] := by
          obtain ⟨ms, mls, hb⟩ := b.exists_lines
          have := (Block.lines_source Binary64.isWritten_of_none (hp.isSpelled hbread) hne).1
          simp [ls, this, hb]
        rw [if_neg hls, ← hapi, ← hmacros] at hcodified
        have hlaid := Relays.laidOut line' hok hbread hne
        rw [hlayout] at hlaid
        rw [← hapi, ← hmacros] at h' ⊢
        exact ⟨_, .statement hfirst hbody' hends hcodified h', .cons hlaid hrel⟩
    · obtain ⟨⟨ps', h', hrel⟩, hisLine⟩ := ih hrest hps (line' + (body.length + 1))
      rw [hrelaid, hlines]
      have hmoved : codified? line' api macros (first :: body) = some (p.moved line' p.lines) := by
        rw [codified?_moved line, hc]
        rfl
      refine ⟨⟨_, .statement hf hb hends hmoved h', .cons (.reported line' herror) hrel⟩, ?_⟩
      exact List.forall_mem_cons.2 ⟨hn, List.forall_mem_append.2 ⟨hbody, hisLine⟩⟩

/-! ## The lines of a document -/

private theorem isLine_of_mem_lines {s l : List Char} (hs : '\r' ∉ s) (h : l ∈ Text.lines s) :
    Text.IsLine l := by
  obtain ⟨hin, hn⟩ := Text.infix_of_mem_lines h
  exact ⟨hn, fun hlast => hs (hin.subset (List.mem_of_getLast? hlast))⟩

/-- Whether a document has no carriage return, does not call comments itself, and no statement in it
has a number with a fraction. -/
structure IsPlain (file : String) (s : List Char) : Prop where
  carriage : '\r' ∉ s
  calls : ¬commentName.toList <:+: s
  whole : ∀ p ∈ (ofText file s).paragraphs, ∀ v, p.vu file = .ok v →
    ∀ q x, Expr.const q (.float x) ∉ v.raw.walk

/-- The statement of a paragraph when it reads as no statements at all. -/
theorem readsEmpty_iff : p.readsEmpty file = true ↔ parse p.prepared.text = .ok [] := by
  unfold VuParagraph.readsEmpty
  cases hv : p.vu file with
  | error e =>
    refine iff_of_false Bool.false_ne_true fun hb => ?_
    rw [VuParagraph.vu_eq_ok_iff.2 ⟨[], hb, rfl⟩] at hv
    exact absurd hv nofun
  | ok v =>
    obtain ⟨b, hb, rfl⟩ := VuParagraph.vu_eq_ok_iff.1 hv
    simp [hb]

/-- A statement that reads as no statements is laid out. -/
theorem formatted_of_readsEmpty (h : p.readsEmpty file = true) :
    ∃ L, p.formatted file = .ok L := by
  obtain ⟨b', hb', he⟩ := Block.ofText_layout (b := []) Binary64.isWritten_of_none rfl
  exact ⟨_, VuParagraph.formatted_eq_ok_iff.2
    ⟨[], b', readsEmpty_iff.1 h, hb', Block.isSame_of_unplaced he, rfl⟩⟩

/-- What a codified statement is when its document is laid out and scanned again. -/
structure Preserves (file : String) (p p' : VuParagraph) : Prop where
  anchor : p'.anchor = p.anchor
  api : p'.api = p.api
  macros : p'.macros = p.macros
  statement : (∃ v v', p.vu file = .ok v ∧ p'.vu file = .ok v' ∧
      v'.raw.unplaced = v.raw.unplaced) ∨
    (∃ e, p.formatted file = .error e) ∧ p'.lines = p.lines ∧ p'.vuLines = p.vuLines

/-- The parts of a document with what is known of its statements. -/
theorem IsPlain.parts {s : List Char} (h : IsPlain file s) : ∃ ps,
    Parts 1 none .empty (Text.lines s) ps ∧ codified ps = (ofText file s).paragraphs ∧
      (∀ l ∈ Text.lines s, Text.IsLine l) ∧ ∀ p ∈ codified ps, p.IsPlain ∧ p.IsFramed := by
  obtain ⟨ps, hps⟩ := exists_parts 1 none .empty (Text.lines s)
  have hlines : ∀ l ∈ Text.lines s, Text.IsLine l := fun l hl => isLine_of_mem_lines h.carriage hl
  have hcodified : codified ps = (ofText file s).paragraphs := hps.scanFrom_eq.symm
  refine ⟨ps, hps, hcodified, hlines, fun p hp => ?_⟩
  obtain ⟨hframed, hsubset, -⟩ := hps.framed (fun l hl => (hlines l hl).newline) p hp
  refine ⟨⟨fun l hl hi => ?_, fun b hb q x => ?_⟩, hframed⟩
  · have hl := hsubset l (List.mem_of_mem_drop hl)
    exact h.calls (hi.trans (Text.infix_of_mem_lines hl).1)
  · exact h.whole p (hcodified ▸ hp) _ (VuParagraph.vu_eq_ok_iff.2 ⟨b, hb, rfl⟩) q x

/-- What laying out and scanning again makes of a part shows in the statements of the document. -/
theorem Relays.cases {part part' : DocumentPart} (h : Relays file part part')
    (hp : ∀ p, part = .statement p → p.IsPlain ∧ p.IsFramed) :
    (replaced (relaid file) part' = replaced (relaid file) part) ∧
      List.Forall₂ (Preserves file) (part.paragraph?.toList.filter (!·.readsEmpty file))
        part'.paragraph?.toList := by
  cases h with
  | stays lines => exact ⟨rfl, .nil⟩
  | @laidOut p L b line hok hb hne =>
    obtain ⟨hplain, hframed⟩ := hp p rfl
    obtain ⟨b₁, b', hb₁, hb', hsame, rfl⟩ := VuParagraph.formatted_eq_ok_iff.1 hok
    obtain rfl : b = b₁ := Except.ok.inj (hb.symm.trans hb₁)
    obtain ⟨⟨v', hv', hun⟩, hagain⟩ :=
      VuParagraph.formatted_moved hplain hframed hb hb' hsame hne line file
    have hempty : p.readsEmpty file = false := by
      rw [Bool.eq_false_iff, Ne, readsEmpty_iff, hb]
      exact fun he => hne (Except.ok.inj he)
    refine ⟨by rw [replaced, replaced, relaid, relaid, hok, hagain], ?_⟩
    simp only [paragraph?, Option.toList_some, List.filter_cons, hempty, List.filter_nil,
      Bool.not_false, if_true]
    exact .cons ⟨rfl, rfl, rfl,
      .inl ⟨_, v', VuParagraph.vu_eq_ok_iff.2 ⟨b, hb, rfl⟩, hv', hun⟩⟩ .nil
  | @emptied p L hok hb =>
    refine ⟨by rw [replaced, replaced, relaid, hok], ?_⟩
    simp only [paragraph?, Option.toList_some, List.filter_cons, readsEmpty_iff.2 hb,
      List.filter_nil, Bool.not_true, Bool.false_eq_true, if_false, Option.toList_none]
    exact .nil
  | @reported p line herror =>
    have hempty : p.readsEmpty file = false := by
      rw [Bool.eq_false_iff]
      exact fun he => (formatted_of_readsEmpty he).elim herror
    have hagain : ∀ L, (p.moved line p.lines).formatted file ≠ .ok L := fun L hL =>
      herror L (VuParagraph.formatted_congr (p := p.moved line p.lines) rfl rfl hL)
    obtain ⟨e, he⟩ : ∃ e, p.formatted file = .error e := by
      cases hf : p.formatted file with
      | error e => exact ⟨e, rfl⟩
      | ok L => exact absurd hf (herror L)
    refine ⟨?_, ?_⟩
    · obtain ⟨_, _, h, _⟩ | ⟨-, hstays⟩ := relaid_cases file p
      · exact absurd h (herror _)
      obtain ⟨_, _, h, _⟩ | ⟨-, hstays'⟩ := relaid_cases file (p.moved line p.lines)
      · exact absurd h (hagain _)
      exact hstays'.trans hstays.symm
    · simp only [paragraph?, Option.toList_some, List.filter_cons, hempty, List.filter_nil,
        Bool.not_false, if_true]
      exact .cons ⟨rfl, rfl, rfl, .inr ⟨⟨e, he⟩, rfl, rfl⟩⟩ .nil

/-- What laying out and scanning again makes of parts shows in the statements of the document. -/
theorem relays_parts {ps ps' : List DocumentPart} (h : List.Forall₂ (Relays file) ps ps')
    (hp : ∀ p ∈ codified ps, p.IsPlain ∧ p.IsFramed) :
    linesOf (relaid file) ps' = linesOf (relaid file) ps ∧
      List.Forall₂ (Preserves file) ((codified ps).filter (!·.readsEmpty file)) (codified ps') := by
  induction h with
  | nil => exact ⟨rfl, .nil⟩
  | @cons part part' ps ps' hpart _ ih =>
    rw [codified_cons, List.forall_mem_append] at hp
    obtain ⟨hlines, hstatement⟩ := hpart.cases fun p he => hp.1 p (by simp [he, paragraph?])
    obtain ⟨ihlines, ihstatements⟩ := ih hp.2
    refine ⟨congrArg₂ (· ++ ·) hlines ihlines, ?_⟩
    rw [codified_cons, codified_cons, List.filter_append]
    exact List.rel_append hstatement ihstatements

/-- A part that is laid out has no more lines outside of statements, unless its statement is gone.
-/
theorem Relays.outside {part part' : DocumentPart} (h : Relays file part part')
    (hp : ∀ p, part = .statement p → p.readsEmpty file = false) :
    replaced (fun _ => []) part' = replaced (fun _ => []) part := by
  cases h with
  | stays lines => rfl
  | laidOut line hok hb hne => rfl
  | emptied hok hb =>
    exact absurd ((hp _ rfl).symm.trans (readsEmpty_iff.2 hb)) Bool.false_ne_true
  | reported line herror => rfl

private theorem outside_parts {ps ps' : List DocumentPart} (h : List.Forall₂ (Relays file) ps ps')
    (hp : ∀ p ∈ codified ps, p.readsEmpty file = false) :
    linesOf (fun _ => []) ps' = linesOf (fun _ => []) ps := by
  induction h with
  | nil => rfl
  | cons hpart _ ih =>
    rw [codified_cons, List.forall_mem_append] at hp
    exact congrArg₂ (· ++ ·) (hpart.outside fun p he => hp.1 p (by simp [he, paragraph?])) (ih hp.2)

/-! ## Laying out and scanning again -/

/-- The parts of a document, and those of the document when it is laid out and scanned again. -/
structure LaysOut (file : String) (s : List Char) (ps ps' : List DocumentPart) : Prop where
  relays : List.Forall₂ (Relays file) ps ps'
  known : ∀ p ∈ codified ps, p.IsPlain ∧ p.IsFramed
  paragraphs : (ofText file s).paragraphs = codified ps
  paragraphs' : (ofText file (ofText file s).format.text).paragraphs = codified ps'
  lines' : (ofText file (ofText file s).format.text).lines = linesOf (relaid file) ps
  replaced (f : VuParagraph → List (List Char)) :
    (ofText file s).replaceFrom f 0 (codified ps) = linesOf f ps
  replaced' (f : VuParagraph → List (List Char)) :
    (ofText file (ofText file s).format.text).replaceFrom f 0 (codified ps') = linesOf f ps'

/-- The lines of a document that is laid out. -/
theorem format_lines (file : String) (s : List Char) : (ofText file s).format.lines =
    (ofText file s).replaceFrom (relaid file) 0 (ofText file s).paragraphs :=
  formatFrom_fst (ofText file s) 0 _

private theorem IsPlain.laysOut {s : List Char} (h : IsPlain file s) :
    ∃ ps ps', LaysOut file s ps ps' := by
  obtain ⟨ps, hparts, hcodified, hlines, hp⟩ := h.parts
  obtain ⟨⟨ps', hparts', hrelays⟩, hlines'⟩ :=
    hparts.relays hlines (fun p hp' => (hp p hp').1) file 1
  have hreplaced (f : VuParagraph → List (List Char)) :
      (ofText file s).replaceFrom f 0 (codified ps) = linesOf f ps :=
    hparts.replaceFrom_eq (fun l hl => (hlines l hl).newline) f rfl rfl
  have hagain : (ofText file (ofText file s).format.text).lines = linesOf (relaid file) ps := by
    show Text.lines (ofText file s).format.text = _
    rw [FormattedDocument.text, format_lines, ← hcodified, hreplaced]
    exact Text.lines_flatMap hlines'
  refine ⟨ps, ps', hrelays, hp, hcodified.symm, ?_, hagain, hreplaced, fun f => ?_⟩
  · show scanFrom 1 none .empty (ofText file (ofText file s).format.text).lines = _
    rw [hagain, hparts'.scanFrom_eq]
  · exact hparts'.replaceFrom_eq (fun l hl => (hlines' l hl).newline) f rfl hagain

/-! ## A page -/

/-- A page with a macro, an anchored statement with a comment, prose, and a statement that cannot be
read. -/
def page : List Char :=
  [":m: a", " * [[VUID-1]]", "   codified-vu", "   # c", "   if  a==b :", "       f( a )",
    " * prose", " * codified-vu", "  a =="].flatMap (·.toList ++ ['\n'])

/-- Whether a statement that can be read has no number with a fraction. -/
private def isWhole (file : String) (p : VuParagraph) : Bool :=
  match p.vu file with
  | .ok v => v.raw.walk.all fun | .const _ (.float _) => false | _ => true
  | .error _ => true

private theorem isPlain_page : IsPlain "page" page where
  carriage := by decide +kernel
  calls := by decide +kernel
  whole := by
    have h : ((ofText "page" page).paragraphs.all (isWhole "page")) = true := by decide +kernel
    intro p hp v hv q x hx
    have h := List.all_eq_true.1 h p hp
    rw [isWhole, hv] at h
    exact absurd (List.all_eq_true.1 h _ hx) Bool.false_ne_true

/-- Laying out a document replaces the lines of its statements and keeps the other ones. Scanned
again, it has the statements that it had, in order, but for those that read as no statements at all;
and if there are none of these, it has the same lines outside of statements. -/
theorem format_preserves {s : List Char} (h : IsPlain file s) :
    let d := ofText file s
    let d' := ofText file d.format.text
    d'.lines = d.replaceFrom (relaid file) 0 d.paragraphs ∧
      List.Forall₂ (Preserves file) (d.paragraphs.filter (!·.readsEmpty file)) d'.paragraphs ∧
      ((∀ p ∈ d.paragraphs, p.readsEmpty file = false) → d'.outside = d.outside) := by
  intro d d'
  obtain ⟨ps, ps', hl⟩ := h.laysOut
  refine ⟨?_, ?_, fun hnone => ?_⟩
  · rw [hl.lines', ← hl.replaced, ← hl.paragraphs]
  · rw [hl.paragraphs, hl.paragraphs']
    exact (relays_parts hl.relays hl.known).2
  · rw [outside, outside, hl.paragraphs, hl.paragraphs', hl.replaced, hl.replaced']
    rw [hl.paragraphs] at hnone
    exact outside_parts hl.relays hnone

/-- The layout of the page keeps its statements, and its lines outside of them. -/
theorem format_preserves_page : IsPlain "page" page ∧
    let d := ofText "page" page
    let d' := ofText "page" d.format.text
    d'.lines = d.replaceFrom (relaid "page") 0 d.paragraphs ∧
      List.Forall₂ (Preserves "page") (d.paragraphs.filter (!·.readsEmpty "page")) d'.paragraphs ∧
      ((∀ p ∈ d.paragraphs, p.readsEmpty "page" = false) → d'.outside = d.outside) :=
  ⟨isPlain_page, format_preserves isPlain_page⟩

/-- A statement whose second line is lost, because the common indentation ends inside of its blanks;
so the backslash of the first line joins it with nothing. -/
def lostLine : List Char :=
  ["* codified-vu", "  \\", "\u3000\u3000f(x)"].flatMap (·.toList ++ ['\n'])

/-- A statement that reads as no statements is gone when its document is laid out. -/
theorem paragraphs_format_ne : (ofText "page" lostLine).paragraphs.length = 1 ∧
    (ofText "page" (ofText "page" lostLine).format.text).paragraphs.length = 0 := by
  decide +kernel

/-- A document that is laid out is laid out as it is. -/
theorem format_again {s : List Char} (h : IsPlain file s) :
    let d := ofText file s
    let d' := ofText file d.format.text
    d'.format.changed = false ∧ d'.format.text = d.format.text := by
  intro d d'
  obtain ⟨ps, ps', hl⟩ := h.laysOut
  have hlines : d.format.lines = linesOf (relaid file) ps := by
    rw [format_lines, hl.paragraphs, hl.replaced]
  have hagain : d'.format.lines = linesOf (relaid file) ps := by
    rw [format_lines, hl.paragraphs', hl.replaced', (relays_parts hl.relays hl.known).1]
  refine ⟨?_, ?_⟩
  · show (d'.format.lines != d'.lines) = false
    rw [hagain, hl.lines', bne_self_eq_false]
  · rw [FormattedDocument.text, hagain, ← hlines, FormattedDocument.text]

/-- The layout of the page, with the statement that cannot be read, stays as it is. -/
theorem format_again_page : IsPlain "page" page ∧
    let d := ofText "page" page
    let d' := ofText "page" d.format.text
    d'.format.changed = false ∧ d'.format.text = d.format.text :=
  ⟨isPlain_page, format_again isPlain_page⟩

end Document
end ValidUsage
