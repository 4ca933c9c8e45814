import ValidUsage.Proofs.DocumentParts

/-!
# The parts tile the document

Scanning takes a document apart into at most as many parts as it has lines, and the lines of the
parts are those of the document. So a codified statement has just the lines that it is said to have,
and statements neither overlap nor change their order. All ranges of lines that laying out takes
from the document and from a statement are then within bounds: `format?`, which takes no other
ranges, gives what `format` gives.
-/

namespace ValidUsage

/-- The lines from one index up to another one; none if the indices are not in order or past the
end. -/
def Document.slice? (lines : List (List Char)) (first last : Nat) : Option (List (List Char)) :=
  if first ≤ last ∧ last ≤ lines.length then some ((lines.take last).drop first) else none

private theorem Document.slice?_eq {lines : List (List Char)} {first last : Nat} (h : first ≤ last)
    (h' : last ≤ lines.length) : slice? lines first last = some ((lines.take last).drop first) :=
  if_pos ⟨h, h'⟩

namespace VuParagraph

/-- Whether a paragraph is a codified statement that stands among lines where it says. -/
structure StandsIn (lines : List (List Char)) (p : VuParagraph) : Prop where
  /-- Lines are counted from one. -/
  line_pos : 0 < p.line
  /-- Its lines are those from its line on. -/
  lines_eq : (lines.drop (p.line - 1)).take p.lines.length = p.lines
  /-- It opens with a bullet. -/
  bullet : ∃ l ∈ p.lines.head?, Document.isBullet l = true
  /-- The text of the statement is not at the very start. -/
  start_pos : 0 < p.start
  /-- The line before the text of the statement is the tag. -/
  tag : ∃ l ∈ p.lines[p.start - 1]?, Paragraph.isTag l = true
  /-- The statement has text. -/
  start_lt : p.start < p.lines.length

/-- Whether a paragraph starts and ends in front of another one. -/
def IsBefore (p q : VuParagraph) : Prop := p.line < q.line ∧ p.line + p.lines.length ≤ q.line

/-- The lines of a paragraph with its statement in source form; none if the text of the statement is
not within the paragraph. -/
def formatted? (p : VuParagraph) (file : String) :
    Option (Except VuError (List (List Char))) := do
  let vuLines ← Document.slice? p.lines p.start p.lines.length
  return do
    let v ← Vu.ofLines vuLines file p.vuLine
    let source ← (v.raw.checked v.raw.source .source).mapError VuError.internal
    return p.layout source v.origin.indent

variable {lines : List (List Char)} {p : VuParagraph}

/-- The lines of a statement end within the document. -/
theorem StandsIn.end_le (h : p.StandsIn lines) : p.line - 1 + p.lines.length ≤ lines.length := by
  have hlen := congrArg List.length h.lines_eq
  rw [List.length_take, List.length_drop] at hlen
  have := h.start_lt
  omega

private theorem StandsIn.formatted?_eq (h : p.StandsIn lines) (file : String) :
    p.formatted? file = some (p.formatted file) := by
  rw [formatted?, Document.slice?_eq h.start_lt.le (Nat.le_refl _), List.take_length]
  rfl

end VuParagraph

namespace Document

open DocumentPart

/-! ## Where statements stand -/

variable {line : Nat} {api : Option String} {macros : Table String} {lines : List (List Char)}
  {ps : List DocumentPart}

/-- A paragraph that is a codified statement has the tag in front of its text. -/
theorem eq_of_codified? {p : VuParagraph} (h : codified? line api macros lines = some p) :
    p.line = line ∧ p.lines = lines ∧ 0 < p.start ∧ p.start < lines.length ∧
      ∃ l ∈ lines[p.start - 1]?, Paragraph.isTag l = true := by
  unfold codified? at h
  dsimp only at h
  rw [Option.ite_none_right_eq_some, Bool.and_eq_true, decide_eq_true_eq] at h
  obtain ⟨⟨htag, hlt⟩, he⟩ := h
  cases he
  exact ⟨rfl, rfl, Nat.succ_pos _, hlt, (Option.any_eq_true ..).1 htag⟩

/-- A codified statement stands behind the lines in front of it. -/
theorem standsIn_of_codified? {front body rest : List (List Char)} {first : List Char}
    {p : VuParagraph} (hfirst : isBullet first = true) (hline : line = front.length + 1)
    (h : codified? line api macros (first :: body) = some p) :
    p.StandsIn (front ++ first :: (body ++ rest)) := by
  obtain ⟨hpline, hplines, hpos, hlt, htag⟩ := eq_of_codified? h
  constructor
  case line_pos => omega
  case lines_eq =>
    rw [hpline, hplines, hline, Nat.add_sub_cancel, List.drop_left, ← List.cons_append,
      List.take_left]
  case bullet => exact ⟨first, hplines ▸ rfl, hfirst⟩
  case start_pos => exact hpos
  case tag => exact hplines ▸ htag
  case start_lt => exact hplines ▸ hlt

/-- The codified statements of lines stand among them, behind the lines in front of these, and each
ends in front of the next ones. -/
theorem Parts.standsIn (h : Parts line api macros lines ps) (front : List (List Char))
    (hline : line = front.length + 1) :
    (∀ p ∈ codified ps, line ≤ p.line ∧ p.StandsIn (front ++ lines)) ∧
      (codified ps).Pairwise VuParagraph.IsBefore := by
  induction h generalizing front with
  | nil => exact ⟨nofun, .nil⟩
  | @definition _ _ _ first _ _ _ _ _ _ ih | @page _ _ _ first _ _ _ _ _ _ ih
  | @other _ _ _ first _ _ _ _ _ _ ih =>
    obtain ⟨hstands, hpairs⟩ := ih (front ++ [first]) (by simp [hline])
    rw [List.append_assoc] at hstands
    exact ⟨fun p hp => ⟨Nat.le_of_succ_le (hstands p hp).1, (hstands p hp).2⟩, hpairs⟩
  | @bullet _ _ _ first body _ _ _ _ _ _ _ ih =>
    obtain ⟨hstands, hpairs⟩ := ih (front ++ first :: body) (by simp [hline]; omega)
    rw [List.append_assoc] at hstands
    exact ⟨fun p hp => ⟨Nat.le_of_add_right_le (hstands p hp).1, (hstands p hp).2⟩, hpairs⟩
  | @statement _ _ _ first body _ _ p hf _ _ hc _ ih =>
    obtain ⟨hpline, hplines, -⟩ := eq_of_codified? hc
    obtain ⟨hstands, hpairs⟩ := ih (front ++ first :: body) (by simp [hline]; omega)
    rw [List.append_assoc] at hstands
    refine ⟨List.forall_mem_cons.2 ⟨⟨hpline.ge, ?_⟩, fun q hq => ?_⟩, .cons (fun q hq => ?_) hpairs⟩
    · exact standsIn_of_codified? hf.bullet hline hc
    · exact ⟨Nat.le_of_add_right_le (hstands q hq).1, (hstands q hq).2⟩
    · have := (hstands q hq).1
      rw [VuParagraph.IsBefore, hpline, hplines, List.length_cons]
      omega

/-- The lines of the parts are the lines that were scanned, and every part has some. -/
theorem Parts.linesOf_eq (h : Parts line api macros lines ps) :
    linesOf VuParagraph.lines ps = lines ∧ ps.length ≤ lines.length := by
  induction h with
  | nil => exact ⟨rfl, Nat.le_refl _⟩
  | definition _ _ ih | page _ _ _ ih | other _ _ _ _ ih =>
    exact ⟨by rw [linesOf_stays, ih.1]; rfl, Nat.succ_le_succ ih.2⟩
  | bullet _ _ _ _ _ ih =>
    refine ⟨by rw [linesOf_stays, ih.1]; rfl, ?_⟩
    simp only [List.length_cons, List.length_append]
    omega
  | statement hf _ _ hc _ ih =>
    obtain ⟨-, hlines, -⟩ := eq_of_codified? hc
    refine ⟨by rw [linesOf_statement, ih.1, hlines]; rfl, ?_⟩
    simp only [List.length_cons, List.length_append]
    omega

/-! ## Ranges of lines -/

/-- The lines of a document from the line at an index on, where the given paragraphs are still to
come, with what is reported about these; none if a range of lines is out of bounds. -/
def formatFrom? (d : Document) (next : Nat) :
    List VuParagraph → Option (List (List Char) × List Diagnostic)
  | [] => (slice? d.lines next d.lines.length).map (·, [])
  | p :: ps =>
    match p.line with
    | 0 => none
    | start + 1 => do
      let between ← slice? d.lines next start
      let formatted ← p.formatted? d.file
      let (rest, ds) ← d.formatFrom? (start + p.lines.length) ps
      match formatted with
      | .ok lines => return (between ++ lines ++ rest, ds)
      | .error e => return (between ++ p.lines ++ rest, e.diagnostics ++ ds)

/-- A document in its laid out form; none if a range of lines is out of bounds. -/
def format? (d : Document) : Option FormattedDocument := do
  let (lines, diagnostics) ← d.formatFrom? 0 d.paragraphs
  return ⟨lines, lines != d.lines, diagnostics⟩

/-- No range is out of bounds where the paragraphs stand in the document and in order, the first one
behind the lines that have been taken. -/
theorem formatFrom?_eq {d : Document} {next : Nat} {ps : List VuParagraph}
    (hnext : next ≤ d.lines.length) (hfirst : ∀ p ∈ ps, next < p.line)
    (hstands : ∀ p ∈ ps, p.StandsIn d.lines) (hpairs : ps.Pairwise VuParagraph.IsBefore) :
    d.formatFrom? next ps = some (d.formatFrom next ps) := by
  induction ps generalizing next with
  | nil => rw [formatFrom?, slice?_eq hnext (Nat.le_refl _), List.take_length]; rfl
  | cons p ps ih =>
    obtain ⟨hp, hps⟩ := List.forall_mem_cons.1 hstands
    obtain ⟨hbefore, hpairs⟩ := List.pairwise_cons.1 hpairs
    have hlt := hfirst p List.mem_cons_self
    have hend := hp.end_le
    have hrest : d.formatFrom? (p.line - 1 + p.lines.length) ps =
        some (d.formatFrom (p.line - 1 + p.lines.length) ps) := by
      refine ih hend (fun q hq => ?_) hps hpairs
      have := (hbefore q hq).2
      have := hp.line_pos
      omega
    obtain ⟨start, hstart⟩ := Nat.exists_eq_succ_of_ne_zero hp.line_pos.ne'
    rw [hstart, Nat.succ_sub_one] at hrest hend
    rw [formatFrom?, formatFrom, hp.formatted?_eq]
    simp only [hstart, Nat.succ_sub_one, Nat.succ_eq_add_one]
    rw [slice?_eq (by omega) (by omega), hrest]
    cases p.formatted d.file <;> rfl

/-- The lines of the parts of a document, of which there are no more than lines, are its lines. Its
codified statements are parts: each stands where it says, opens with a bullet and has the tag in
front of its text, and each ends in front of the next ones. So every range of lines that laying out
takes is within bounds. -/
theorem ofText_tiles (file : String) (s : List Char) :
    (∃ ps, Parts 1 none .empty (ofText file s).lines ps ∧
      ps.length ≤ (ofText file s).lines.length ∧
      linesOf VuParagraph.lines ps = (ofText file s).lines ∧
      codified ps = (ofText file s).paragraphs) ∧
    (∀ p ∈ (ofText file s).paragraphs, p.StandsIn (ofText file s).lines) ∧
    (ofText file s).paragraphs.Pairwise VuParagraph.IsBefore ∧
    (ofText file s).format? = some (ofText file s).format := by
  obtain ⟨ps, h⟩ := exists_parts 1 none .empty (Text.lines s)
  have hcodified : codified ps = (ofText file s).paragraphs := h.scanFrom_eq.symm
  obtain ⟨hstands, hpairs⟩ := h.standsIn [] rfl
  rw [hcodified] at hstands hpairs
  obtain ⟨hlines, hlength⟩ := h.linesOf_eq
  have hformat := formatFrom?_eq (d := ofText file s) (Nat.zero_le _)
    (fun p hp => (hstands p hp).1) (fun p hp => (hstands p hp).2) hpairs
  refine ⟨⟨ps, h, hlength, hlines, hcodified⟩, fun p hp => (hstands p hp).2, hpairs, ?_⟩
  rw [format?, hformat]
  rfl

/-- Two statements. The tag of the first one is behind its bullet, that of the second one on a line
of its own. -/
def twoBullets : List Char :=
  ["* codified-vu", "  f(x)", "* [[VUID-1]]", "  codified-vu", "  g(x)"].flatMap
    (·.toList ++ ['\n'])

/-- The two statements stand apart in their document, one after the other. -/
theorem ofText_tiles_twoBullets : ∃ p q, (ofText "page" twoBullets).paragraphs = [p, q] ∧
    p.StandsIn (ofText "page" twoBullets).lines ∧ q.StandsIn (ofText "page" twoBullets).lines ∧
    p.IsBefore q ∧ (ofText "page" twoBullets).format?.isSome = true := by
  have hlen : (ofText "page" twoBullets).paragraphs.length = 2 := by decide +kernel
  obtain ⟨p, q, hpq⟩ := List.length_eq_two.1 hlen
  obtain ⟨-, hstands, hpairs, hformat⟩ := ofText_tiles "page" twoBullets
  rw [hpq] at hstands hpairs
  have hbefore := (List.pairwise_cons.1 hpairs).1 q List.mem_cons_self
  exact ⟨p, q, hpq, hstands p (by simp), hstands q (by simp), hbefore, by rw [hformat]; rfl⟩

end Document
end ValidUsage
