import ValidUsage.Proofs.FormatStatement

/-!
# The parts of a document

A document is codified statements and the lines between them. Scanning takes one part after the
other, and a part ends where a line ends its paragraph or the document ends; laying out replaces the
lines of the statements and of nothing else.
-/

namespace ValidUsage

/-- A part of a document. -/
inductive DocumentPart where
  /-- Lines that hold no codified statement. -/
  | stays (lines : List (List Char))
  /-- A codified statement. -/
  | statement (p : VuParagraph)

namespace DocumentPart

/-- The lines of a part, where those of statements are replaced. -/
def replaced (f : VuParagraph → List (List Char)) : DocumentPart → List (List Char)
  | stays lines => lines
  | statement p => f p

/-- The codified statement that a part is. -/
def paragraph? : DocumentPart → Option VuParagraph
  | stays _ => none
  | statement p => some p

/-- The codified statements of parts. -/
def codified (ps : List DocumentPart) : List VuParagraph := ps.filterMap paragraph?

/-- The lines of parts, where those of statements are replaced. -/
def linesOf (f : VuParagraph → List (List Char)) (ps : List DocumentPart) : List (List Char) :=
  ps.flatMap (replaced f)

variable {f : VuParagraph → List (List Char)} {ls : List (List Char)} {p : VuParagraph}
  {ps : List DocumentPart}

@[simp] theorem codified_nil : codified [] = [] := rfl

@[simp] theorem codified_stays : codified (.stays ls :: ps) = codified ps := rfl

@[simp] theorem codified_statement : codified (.statement p :: ps) = p :: codified ps := rfl

/-- The statements of a part stand in front of those of the others. -/
theorem codified_cons (part : DocumentPart) (ps : List DocumentPart) :
    codified (part :: ps) = part.paragraph?.toList ++ codified ps := by
  cases part <;> rfl

@[simp] theorem linesOf_nil : linesOf f [] = [] := rfl

@[simp] theorem linesOf_stays : linesOf f (.stays ls :: ps) = ls ++ linesOf f ps := rfl

@[simp] theorem linesOf_statement : linesOf f (.statement p :: ps) = f p ++ linesOf f ps := rfl

end DocumentPart

namespace Document

open DocumentPart

/-- Whether lines are at the end of a document or end the paragraph before them. -/
def EndsParagraph (lines : List (List Char)) : Prop :=
  ∀ l ∈ lines.head?, endsParagraph l = true

/-- The parts that lines are scanned into, at a line of a document and with an API and macros. -/
inductive Parts : Nat → Option String → Table String → List (List Char) → List DocumentPart → Prop
  | nil {line : Nat} {api : Option String} {macros : Table String} : Parts line api macros [] []
  | definition {line : Nat} {api : Option String} {macros : Table String} {first : List Char}
    {rest : List (List Char)} {ps : List DocumentPart} {name value : String}
    (hd : definition? first = some (name, value))
    (h : Parts (line + 1) api (macros.insert name value) rest ps) :
    Parts line api macros (first :: rest) (.stays [first] :: ps)
  | page {line : Nat} {api : Option String} {macros : Table String} {first : List Char}
    {rest : List (List Char)} {ps : List DocumentPart} {page : String}
    (hd : definition? first = none) (hp : page? first = some page)
    (h : Parts (line + 1) (some page) (macros.insert pageMacro page) rest ps) :
    Parts line api macros (first :: rest) (.stays [first] :: ps)
  | statement {line : Nat} {api : Option String} {macros : Table String} {first : List Char}
    {body rest : List (List Char)} {ps : List DocumentPart} {p : VuParagraph}
    (hf : OpensParagraph first) (hb : ∀ l ∈ body, endsParagraph l = false)
    (hr : EndsParagraph rest) (hc : codified? line api macros (first :: body) = some p)
    (h : Parts (line + (body.length + 1)) api macros rest ps) :
    Parts line api macros (first :: (body ++ rest)) (.statement p :: ps)
  | bullet {line : Nat} {api : Option String} {macros : Table String} {first : List Char}
    {body rest : List (List Char)} {ps : List DocumentPart}
    (hf : OpensParagraph first) (hb : ∀ l ∈ body, endsParagraph l = false)
    (hr : EndsParagraph rest) (hc : codified? line api macros (first :: body) = none)
    (h : Parts (line + (body.length + 1)) api macros rest ps) :
    Parts line api macros (first :: (body ++ rest)) (.stays (first :: body) :: ps)
  | other {line : Nat} {api : Option String} {macros : Table String} {first : List Char}
    {rest : List (List Char)} {ps : List DocumentPart} (hd : definition? first = none)
    (hp : page? first = none) (hb : isBullet first = false)
    (h : Parts (line + 1) api macros rest ps) :
    Parts line api macros (first :: rest) (.stays [first] :: ps)

variable {line : Nat} {api : Option String} {macros : Table String} {lines : List (List Char)}
  {ps : List DocumentPart}

private theorem endsParagraph_dropWhile (rest : List (List Char)) :
    EndsParagraph (rest.dropWhile (!endsParagraph ·)) := by
  intro l hl
  have := List.head?_dropWhile_not (!endsParagraph ·) rest
  rw [Option.mem_def.1 hl] at this
  simpa using this

private theorem takeWhile_append {body rest : List (List Char)}
    (hb : ∀ l ∈ body, endsParagraph l = false) (hr : EndsParagraph rest) :
    (body ++ rest).takeWhile (!endsParagraph ·) = body ∧
      (body ++ rest).dropWhile (!endsParagraph ·) = rest := by
  have hb' : ∀ l ∈ body, (!endsParagraph l) = true := fun l hl => by simp [hb l hl]
  rw [List.takeWhile_append_of_pos hb', List.dropWhile_append_of_pos hb']
  cases rest with
  | nil => simp
  | cons l rest => simp [hr l rfl]

/-- Lines are scanned into parts. -/
theorem exists_parts (line : Nat) (api : Option String) (macros : Table String) :
    (lines : List (List Char)) → ∃ ps, Parts line api macros lines ps
  | [] => ⟨[], .nil⟩
  | first :: rest => by
    cases hd : definition? first with
    | some x =>
      obtain ⟨ps, h⟩ := exists_parts (line + 1) api (macros.insert x.1 x.2) rest
      exact ⟨_, .definition hd h⟩
    | none => cases hp : page? first with
      | some page =>
        obtain ⟨ps, h⟩ := exists_parts (line + 1) (some page) (macros.insert pageMacro page) rest
        exact ⟨_, .page hd hp h⟩
      | none => cases hb : isBullet first with
        | false =>
          obtain ⟨ps, h⟩ := exists_parts (line + 1) api macros rest
          exact ⟨_, .other hd hp hb h⟩
        | true =>
          have hbody : ∀ l ∈ rest.takeWhile (!endsParagraph ·), endsParagraph l = false := by
            intro l hl
            simpa using List.all_eq_true.1 List.all_takeWhile l hl
          have hends := endsParagraph_dropWhile rest
          obtain ⟨ps, h⟩ := exists_parts
            (line + ((rest.takeWhile (!endsParagraph ·)).length + 1)) api macros
            (rest.dropWhile (!endsParagraph ·))
          have hsplit : rest.takeWhile (!endsParagraph ·) ++ rest.dropWhile (!endsParagraph ·) =
              rest := List.takeWhile_append_dropWhile
          cases hc : codified? line api macros (first :: rest.takeWhile (!endsParagraph ·)) with
          | some p =>
            have := Parts.statement ⟨hd, hp, hb⟩ hbody hends hc h
            rw [hsplit] at this
            exact ⟨_, this⟩
          | none =>
            have := Parts.bullet ⟨hd, hp, hb⟩ hbody hends hc h
            rw [hsplit] at this
            exact ⟨_, this⟩
termination_by lines => lines.length
decreasing_by
  all_goals
    have := (List.dropWhile_suffix (l := rest) (!endsParagraph ·)).length_le
    simp only [List.length_cons]
    omega

/-- The codified statements of lines are those of their parts. -/
theorem Parts.scanFrom_eq (h : Parts line api macros lines ps) :
    scanFrom line api macros lines = codified ps := by
  induction h with
  | nil => rw [scanFrom, codified_nil]
  | definition hd _ ih => rw [scanFrom, hd, codified_stays, ← ih]
  | page hd hp _ ih => rw [scanFrom, hd, codified_stays, ← ih, hp]
  | statement hf hb hr hc _ ih =>
    obtain ⟨htake, hdrop⟩ := takeWhile_append hb hr
    rw [scanFrom, hf.definition, hf.page]
    simp only [hf.bullet, if_true, htake, hdrop, hc, List.length_cons, ih]
    rfl
  | bullet hf hb hr hc _ ih =>
    obtain ⟨htake, hdrop⟩ := takeWhile_append hb hr
    rw [scanFrom, hf.definition, hf.page]
    simp only [hf.bullet, if_true, htake, hdrop, hc, List.length_cons, ih]
    rfl
  | other hd hp hb _ ih =>
    rw [scanFrom, hd, hp, codified_stays, ← ih, hb]
    simp

/-- A codified statement of lines is framed and has some of the lines. It is at the first of them or
further down. -/
theorem Parts.framed (h : Parts line api macros lines ps) (hn : ∀ l ∈ lines, '\n' ∉ l) :
    ∀ p ∈ codified ps, p.IsFramed ∧ (∀ l ∈ p.lines, l ∈ lines) ∧ line ≤ p.line := by
  induction h with
  | nil => exact fun p hp => absurd hp List.not_mem_nil
  | definition _ _ ih | page _ _ _ ih | other _ _ _ _ ih =>
    intro p hp
    obtain ⟨hframed, hlines, hle⟩ := ih (List.forall_mem_cons.1 hn).2 p hp
    exact ⟨hframed, fun l hl => List.mem_cons_of_mem _ (hlines l hl), Nat.le_of_succ_le hle⟩
  | bullet _ _ _ _ _ ih =>
    intro p hp
    have hn' := (List.forall_mem_append.1 (List.forall_mem_cons.1 hn).2).2
    obtain ⟨hframed, hlines, hle⟩ := ih hn' p hp
    refine ⟨hframed, fun l hl => ?_, by omega⟩
    exact List.mem_cons_of_mem _ (List.mem_append_right _ (hlines l hl))
  | @statement _ _ _ first body _ _ _ _ _ _ hc _ ih =>
    have hn' := List.forall_mem_append.1 (List.forall_mem_cons.1 hn).2
    intro p hp
    rcases List.mem_cons.1 hp with rfl | hp
    · obtain ⟨hframed, hline, hlines, -⟩ := VuParagraph.isFramed_of_codified?
        (List.forall_mem_cons.2 ⟨(List.forall_mem_cons.1 hn).1, hn'.1⟩) hc
      refine ⟨hframed, fun l hl => ?_, Nat.le_of_eq hline.symm⟩
      have hl : l ∈ first :: body := hlines ▸ hl
      simpa using (List.mem_cons.1 hl).imp_right .inl
    · obtain ⟨hframed, hlines, hle⟩ := ih hn'.2 p hp
      refine ⟨hframed, fun l hl => ?_, by omega⟩
      exact List.mem_cons_of_mem _ (List.mem_append_right _ (hlines l hl))

/-! ## Replacing the lines of statements -/

/-- The lines of a document from the line at an index on, where those of the given statements are
replaced. -/
def replaceFrom (d : Document) (f : VuParagraph → List (List Char)) (next : Nat) :
    List VuParagraph → List (List Char)
  | [] => d.lines.drop next
  | p :: ps =>
    (d.lines.take (p.line - 1)).drop next ++
      (f p ++ d.replaceFrom f (p.line - 1 + p.lines.length) ps)

/-- The lines of a document outside of its codified statements. -/
def outside (d : Document) : List (List Char) := d.replaceFrom (fun _ => []) 0 d.paragraphs

/-- The lines of a statement when it is laid out, or as they are when it cannot be. -/
def relaid (file : String) (p : VuParagraph) : List (List Char) :=
  match p.formatted file with
  | .ok lines => lines
  | .error _ => p.lines

/-- Laying out the statements of a document replaces each by its laid out lines. -/
theorem formatFrom_fst (d : Document) (next : Nat) (ps : List VuParagraph) :
    (d.formatFrom next ps).1 = d.replaceFrom (relaid d.file) next ps := by
  induction ps generalizing next with
  | nil => rfl
  | cons p ps ih =>
    have ih := ih (p.line - 1 + p.lines.length)
    rw [formatFrom, replaceFrom, ← ih, relaid]
    cases p.formatted d.file with
    | ok lines => simp
    | error e => simp

/-- Lines in front of the first statement stay. -/
theorem replaceFrom_skip {d : Document} (f : VuParagraph → List (List Char)) {next k : Nat}
    {ps : List VuParagraph} (h : ∀ p ∈ ps, next + k + 1 ≤ p.line) :
    d.replaceFrom f next ps = (d.lines.drop next).take k ++ d.replaceFrom f (next + k) ps := by
  cases ps with
  | nil => rw [replaceFrom, replaceFrom, ← List.drop_drop, List.take_append_drop]
  | cons p ps =>
    have hp := h p List.mem_cons_self
    have hdrop : (d.lines.take (p.line - 1)).drop (next + k) =
        ((d.lines.take (p.line - 1)).drop next).drop k := List.drop_drop.symm
    have htake : (d.lines.drop next).take k = ((d.lines.take (p.line - 1)).drop next).take k := by
      rw [List.drop_take, List.take_take, Nat.min_eq_left (by omega)]
    rw [replaceFrom, replaceFrom, hdrop, htake, ← List.append_assoc (List.take k _),
      List.take_append_drop]

/-- Replacing the lines of statements replaces those of the parts that are statements. -/
theorem Parts.replaceFrom_eq {d : Document} (h : Parts line api macros lines ps)
    (hn : ∀ l ∈ lines, '\n' ∉ l) (f : VuParagraph → List (List Char)) {next : Nat}
    (hline : line = next + 1) (hlines : d.lines.drop next = lines) :
    d.replaceFrom f next (codified ps) = linesOf f ps := by
  have single {line next : Nat} {api : Option String} {macros : Table String} {first : List Char}
      {rest : List (List Char)} {ps : List DocumentPart} (h : Parts (line + 1) api macros rest ps)
      (hn : ∀ l ∈ first :: rest, '\n' ∉ l) (hline : line = next + 1)
      (hlines : d.lines.drop next = first :: rest)
      (ih : d.lines.drop (next + 1) = rest →
        d.replaceFrom f (next + 1) (codified ps) = linesOf f ps) :
      d.replaceFrom f next (codified ps) = first :: linesOf f ps := by
    have hrest : d.lines.drop (next + 1) = rest := by rw [← List.drop_drop, hlines]; rfl
    have hle := fun p hp => (h.framed (List.forall_mem_cons.1 hn).2 p hp).2.2
    rw [replaceFrom_skip f (k := 1) fun p hp => by have := hle p hp; omega, hlines, ih hrest]
    rfl
  have block {first : List Char} {body rest : List (List Char)} {next : Nat}
      (hlines : d.lines.drop next = first :: (body ++ rest)) :
      d.lines.drop (next + (body.length + 1)) = rest ∧
        (d.lines.drop next).take (body.length + 1) = first :: body := by
    rw [← List.drop_drop, hlines]
    simp
  induction h generalizing next with
  | nil => exact hlines
  | definition _ h ih =>
    exact single h hn hline hlines fun hr =>
      ih (List.forall_mem_cons.1 hn).2 (by rw [hline]) hr
  | page _ _ h ih =>
    exact single h hn hline hlines fun hr =>
      ih (List.forall_mem_cons.1 hn).2 (by rw [hline]) hr
  | other _ _ _ h ih =>
    exact single h hn hline hlines fun hr =>
      ih (List.forall_mem_cons.1 hn).2 (by rw [hline]) hr
  | @bullet _ _ _ first body rest _ _ _ _ _ h ih =>
    have hn' := (List.forall_mem_append.1 (List.forall_mem_cons.1 hn).2).2
    obtain ⟨hrest, hbody⟩ := block hlines
    have hle := fun p hp => (h.framed hn' p hp).2.2
    rw [codified_stays, linesOf_stays, replaceFrom_skip f (k := body.length + 1)
      fun p hp => by have := hle p hp; omega, hbody, ih hn' (by omega) hrest]
  | @statement _ _ _ first body rest _ p _ _ _ hc h ih =>
    have hn' := List.forall_mem_append.1 (List.forall_mem_cons.1 hn).2
    obtain ⟨hrest, -⟩ := block hlines
    obtain ⟨-, hpline, hplines, -⟩ := VuParagraph.isFramed_of_codified?
      (List.forall_mem_cons.2 ⟨(List.forall_mem_cons.1 hn).1, hn'.1⟩) hc
    have hnext : p.line - 1 = next := by omega
    have hempty : (d.lines.take next).drop next = [] := by
      rw [List.drop_eq_nil_iff, List.length_take]
      omega
    rw [codified_statement, linesOf_statement, replaceFrom, hnext, hempty, hplines,
      List.length_cons, ih hn'.2 (by omega) hrest]
    rfl

end Document
end ValidUsage
