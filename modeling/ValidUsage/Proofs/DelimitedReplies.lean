import ValidUsage.Proofs.Misread
import ValidUsage.Proofs.RenderAccepted
import ValidUsage.Proofs.RenderedLines
import ValidUsage.Proofs.SessionReplies

/-!
# Where a reply ends

The reply on a statement ends with its verdict, and the two renderings of a statement have the line
between them that parts them. Neither is among the lines of a rendering: those have signs that the
keywords do not have, because the markup is read again before it is sent, so that its names are
names. Two kinds of lines come from the author as they are, those of a statement that is sent back
and those of a comment of several lines.
-/

namespace ValidUsage

/-! ## Names that are read again -/

private theorem isFlat_of_isIdentifier {id : String} (h : isIdentifier id = true) :
    '\n' ∉ id.toList :=
  (IsWord.of_isIdentifier h).notMem (by decide)

namespace Expr

variable {f : Constant → Constant}

private theorem isFlat_of_isFormed {fractions : Binary64 → Bool} {e : Expr}
    (h : e.isFormed fractions = true) : e.IsFlat := by
  cases e with
  | name p id => exact isFlat_of_isIdentifier h
  | member p value attr => exact isFlat_of_isIdentifier (Bool.and_eq_true_iff.1 h).2
  | _ => trivial

/-- The parts of an expression without positions are its parts without positions. -/
theorem walk_bareBy (e : Expr) : (e.bareBy f).walk = e.walk.map (bareBy f) := by
  have list {es : List Expr} (ih : ∀ e ∈ es, (e.bareBy f).walk = e.walk.map (bareBy f)) :
      walkList (bareListBy f es) = (walkList es).map (bareBy f) := by
    induction es with
    | nil => rfl
    | cons e es ihs =>
      rw [bareListBy, walkList, walkList, List.map_append, ih e List.mem_cons_self,
        ihs fun e he => ih e (List.mem_cons_of_mem _ he)]
  have bound {o : Option Expr} (ih : ∀ e ∈ o, (e.bareBy f).walk = e.walk.map (bareBy f)) :
      walkOption (bareOptionBy f o) = (walkOption o).map (bareBy f) := by
    cases o with
    | none => rfl
    | some e => exact ih e rfl
  induction e using partsInduction with
  | boolOp p op values ih => simp [bareBy, walk, list ih]
  | binary p left op right ihl ihr => simp [bareBy, walk, ihl, ihr]
  | unary p op operand ih => simp [bareBy, walk, ih]
  | compare p left ops comparators ihl ih => simp [bareBy, walk, ihl, list ih]
  | call p func args ihf ih => simp [bareBy, walk, ihf, list ih]
  | member p value attr ih => simp [bareBy, walk, ih]
  | subscript p value index ihv ihi => simp [bareBy, walk, ihv, ihi]
  | ifExp p test body orelse iht ihb iho => simp [bareBy, walk, iht, ihb, iho]
  | name | const => rfl
  | tuple p elts ih => simp [bareBy, walk, list ih]
  | list p elts ih => simp [bareBy, walk, list ih]
  | slice p lower upper step ihl ihu ihs => simp [bareBy, walk, bound ihl, bound ihu, bound ihs]

private theorem isFlat_bareBy (e : Expr) : (e.bareBy f).IsFlat ↔ e.IsFlat := by cases e <;> rfl

private theorem areFlat_bareBy (e : Expr) :
    (∀ x ∈ (e.bareBy f).walk, x.IsFlat) ↔ ∀ x ∈ e.walk, x.IsFlat := by
  simp [walk_bareBy, isFlat_bareBy]

private theorem areFlat_bareListBy (es : List Expr) :
    (∀ x ∈ walkList (bareListBy f es), x.IsFlat) ↔ ∀ x ∈ walkList es, x.IsFlat := by
  induction es with
  | nil => rfl
  | cons e es ih => simp only [bareListBy, walkList, List.forall_mem_append, areFlat_bareBy, ih]

end Expr

namespace Stmt

variable {f : Constant → Constant}

/-- A comment has no names but that of comments. -/
theorem areFlat_of_isComment {s : Stmt} (h : s.isComment = true) : ∀ x ∈ s.walk, x.IsFlat := by
  obtain ⟨text, htext⟩ := Option.isSome_iff_exists.1 h
  cases s with
  | expr p value =>
    obtain ⟨p₁, p₂, p₃, rfl⟩ := eq_call_of_comment? htext
    have hname : '\n' ∉ commentName.toList := by decide
    simp [walk, Expr.walk, Expr.walkList, Expr.IsFlat, hname]
  | _ => exact absurd htext nofun

private theorem areFlat_bareBlockBy_of {b : Block}
    (ih : ∀ s ∈ b, (∀ x ∈ (s.bareBy f).walk, x.IsFlat) ↔ ∀ x ∈ s.walk, x.IsFlat) :
    (∀ x ∈ walkBlock (bareBlockBy f b), x.IsFlat) ↔ ∀ x ∈ walkBlock b, x.IsFlat := by
  induction b with
  | nil => rfl
  | cons s ss ihs =>
    have hs := ih s List.mem_cons_self
    have hss := ihs fun s hs => ih s (List.mem_cons_of_mem _ hs)
    rw [bareBlockBy]
    split
    · rename_i hc
      rw [hss, walkBlock, List.forall_mem_append]
      exact (and_iff_right (areFlat_of_isComment hc)).symm
    · simp only [walkBlock, List.forall_mem_append, hs, hss]

/-- The names of a statement are those that it has without positions and comments. -/
theorem areFlat_bareBy (s : Stmt) :
    (∀ x ∈ (s.bareBy f).walk, x.IsFlat) ↔ ∀ x ∈ s.walk, x.IsFlat := by
  induction s using partsInduction with
  | assign p targets value =>
    simp only [bareBy, walk, List.forall_mem_append, Expr.areFlat_bareListBy, Expr.areFlat_bareBy]
  | update p target op value =>
    simp only [bareBy, walk, List.forall_mem_append, Expr.areFlat_bareBy]
  | ifElse p test body orelse ihb iho | whileDo p test body orelse ihb iho =>
    simp only [bareBy, walk, List.forall_mem_append, Expr.areFlat_bareBy,
      areFlat_bareBlockBy_of ihb, areFlat_bareBlockBy_of iho]
  | forEach p target iter body orelse ihb iho =>
    simp only [bareBy, walk, List.forall_mem_append, Expr.areFlat_bareBy,
      areFlat_bareBlockBy_of ihb, areFlat_bareBlockBy_of iho]
  | expr p value => exact Expr.areFlat_bareBy value
  | pass | breakOut | nextRound => rfl

end Stmt

namespace Block

variable {b b' : Block}

/-- Blocks that are the same program have the same names. -/
theorem areFlat_of_isSame (h : isSame b' b = true) (hb : ∀ x ∈ b'.walk, x.IsFlat) :
    ∀ x ∈ b.walk, x.IsFlat := by
  have hwhole (c : Block) : (∀ x ∈ (Block.core c).walk, x.IsFlat) ↔ ∀ x ∈ c.walk, x.IsFlat :=
    Stmt.areFlat_bareBlockBy_of fun s _ => s.areFlat_bareBy
  have hcore : Block.core b' = Block.core b := eq_of_beq h
  rw [← hwhole, ← hcore, hwhole]
  exact hb

private theorem IsGiven.areFlat {kept : Bool} (h : b.IsGiven kept) : ∀ x ∈ b.walk, x.IsFlat := by
  intro x hx
  exact Expr.isFlat_of_isFormed (Expr.isFormed_of_isSound (List.all_eq_true.1 h.nodes x hx))

/-- Markup that is given out is that of the block, whose names are on one line each: it was read
again. -/
theorem render_output_cases {s : Subject} {output : List Char}
    (h : b.render s .output = .ok output) :
    output = Markup.render s b ∧ ∀ x ∈ b.walk, x.IsFlat := by
  unfold render checked at h
  split at h
  · exact absurd h nofun
  · rename_i hfault
    obtain ⟨b', hread, hsame⟩ := (fault?_eq_none_iff rfl).1 hfault
    have hgiven : b'.IsGiven false :=
      isGiven_of_parse (fun h => absurd h Bool.false_ne_true) hread
    exact ⟨(Except.ok.inj h).symm, areFlat_of_isSame hsame hgiven.areFlat⟩

end Block

/-- What is built is what is left of the statement, in its two renderings. -/
theorem Vu.build_cases {v : Vu} {api : String} {macros : Table String} {r : Registry} {b : Build}
    {output text : List Char} {ws : List Diagnostic}
    (h : v.build api macros r b = .ok (.built output text ws)) : ∃ w c s,
      v.applyMacros macros = .ok w ∧ (w.expanded.strip b).block = some c ∧
        c.render s .output = .ok output ∧ text = Prose.render s c := by
  obtain ⟨w, hw, h⟩ := Parser.ok_of_bind h
  obtain ⟨checked, -, h⟩ := Parser.ok_of_bind h
  dsimp only at h
  split at h
  · exact absurd h nofun
  · rename_i c hc
    obtain ⟨output', hout, h⟩ := Parser.ok_of_bind h
    cases h
    refine ⟨w, c, ⟨r, checked.api⟩, hw, hc, ?_, rfl⟩
    cases hr : c.render ⟨r, checked.api⟩ .output with
    | error e =>
      rw [hr] at hout
      exact absurd hout nofun
    | ok output' =>
      rw [hr] at hout
      cases hout
      rfl

namespace Session

/-- Whether a line is a verdict. -/
def isVerdict (line : List Char) : Bool :=
  [Verdict.success, .fail, .eliminated].any (·.line == line)

/-- Whether it can be seen where a reply ends, and where its renderings are parted if it has any. -/
structure Reply.IsDelimited (a : Reply) : Prop where
  /-- One line is a verdict. -/
  verdict : a.lines.countP isVerdict = 1
  /-- It is the last one. -/
  last : a.lines.getLast?.any isVerdict = true
  /-- One line parts the renderings. -/
  parted : a.lines.getLast? = some Verdict.success.line → a.lines.count proseLine = 1

instance (a : Reply) : Decidable a.IsDelimited :=
  decidable_of_iff (a.lines.countP isVerdict = 1 ∧ a.lines.getLast?.any isVerdict = true ∧
      (a.lines.getLast? = some Verdict.success.line → a.lines.count proseLine = 1))
    ⟨fun h => ⟨h.1, h.2.1, h.2.2⟩, fun h => ⟨h.verdict, h.last, h.parted⟩⟩

/-- What a build leaves of a statement whose macros can be replaced. -/
def StatementRequest.stripped? (q : StatementRequest) (b : Build) : Option Block :=
  match expand q.macros q.prepared.text with
  | .ok x => match parse x.text with
    | .ok c => (c.strip b).block
    | .error _ => none
  | .error _ => none

private theorem isVerdict_line (v : Verdict) : isVerdict v.line = true ∧ v.line ≠ proseLine := by
  cases v <;> decide

/-- A line with a sign of a rendering is no keyword. -/
theorem not_isVerdict_of_sign {l : List Char} (h : '+' ∈ l ∨ '#' ∈ l ∨ '*' ∈ l) :
    isVerdict l = false ∧ l ≠ proseLine := by
  have hprose : '+' ∉ proseLine ∧ '#' ∉ proseLine ∧ '*' ∉ proseLine := by decide
  have hline (v : Verdict) : '+' ∉ v.line ∧ '#' ∉ v.line ∧ '*' ∉ v.line := by cases v <;> decide
  refine ⟨?_, ?_⟩
  · rw [isVerdict, List.any_eq_false]
    intro v _ hv
    obtain ⟨hplus, hframe, hstar⟩ := hline v
    rw [eq_of_beq hv] at hplus hframe hstar
    tauto
  · rintro rfl
    tauto

/-- The lines of both renderings have nothing of a keyword. -/
theorem not_isVerdict_of_build {x : StatementRequest} {o : Overflow} {r : Registry} {b : Build}
    {output text : List Char} {ws : List Diagnostic}
    (h : x.build o r b = .ok (.ok (.built output text ws)))
    (hc : ∀ c ∈ x.stripped? b, ∀ t ∈ c.comments, '\n' ∉ t.toList) :
    ∀ l ∈ Text.lines output ++ Text.lines text, isVerdict l = false ∧ l ≠ proseLine := by
  obtain ⟨line, hbuilt⟩ := StatementRequest.build_eq_ok h
  obtain ⟨v, hv, h⟩ := Parser.ok_of_bind hbuilt.symm
  obtain ⟨w, c, s, hw, hblock, hrender, rfl⟩ := Vu.build_cases h
  obtain ⟨rfl, hnames⟩ := Block.render_output_cases hrender
  obtain ⟨e, d, he, hd, rfl⟩ := Vu.applyMacros_eq_ok hw
  obtain ⟨_, -, rfl⟩ := Vu.ofText_eq_ok_iff.1 hv
  have hstripped : x.stripped? b = some c := by
    simp only [StatementRequest.stripped?, StatementRequest.prepared, he, hd]
    exact hblock
  have hflat : c.IsFlat := ⟨hnames, hc c hstripped⟩
  intro l hl
  rcases List.mem_append.1 hl with hl | hl
  · exact not_isVerdict_of_sign ((Markup.sign_mem_of_mem_lines s hflat l hl).imp_right .inl)
  · rcases Prose.star_mem_of_mem_lines s hflat l hl with rfl | hl
    · decide
    · exact not_isVerdict_of_sign (.inr (.inr hl))

section Statement

variable {lines : List (List Char)} {v : Verdict} {ds : List Diagnostic}

private theorem getLast?_statement : (Reply.statement lines v ds).lines.getLast? = some v.line :=
  List.getLast?_concat ..

private theorem isDelimited_statement (h : ∀ l ∈ lines, isVerdict l = false)
    (hp : v = .success → lines.count proseLine = 1) :
    (Reply.statement lines v ds).IsDelimited where
  verdict := by
    have hnone : lines.countP isVerdict = 0 := List.countP_eq_zero.2 fun l hl => by simp [h l hl]
    have hkeyword : isVerdict RequestKind.statement.keyword = false := by decide
    simp [Reply.statement, List.countP_append, hnone, hkeyword,
      (isVerdict_line v).1]
  last := by
    rw [getLast?_statement]
    exact (isVerdict_line v).1
  parted hl := by
    rw [getLast?_statement] at hl
    have hv : v = .success := by
      cases v with
      | success => rfl
      | fail => exact absurd hl (by decide)
      | eliminated => exact absurd hl (by decide)
    have hkeyword : RequestKind.statement.keyword ≠ proseLine := by decide
    simp [Reply.statement, List.count_append, hp hv, hkeyword,
      (isVerdict_line v).2]

end Statement

/-- A request for a statement is answered by the reply on the statement. -/
theorem answer_statement (o : Overflow) (r : Registry) (b : Build) {q : Request}
    {x : StatementRequest} (hk : q.kind = .statement)
    (hx : StatementRequest.ofLines q.lines = .ok x) :
    q.answer o r b = (x.reply o r b).map (b, ·) := by
  rw [Request.answer, hk]
  simp only [hx]
  show (x.reply o r b).bind (fun a => .ok (b, a)) = _
  cases x.reply o r b <;> rfl

/-- A request with a statement whose macros can be scanned is answered, unless the process breaks
off at a line number that is too large; and whatever it is answered, the last line is a verdict. The
reply is delimited unless it sends back a line that is a verdict itself, or renders a comment of
several lines. -/
theorem isDelimited_answer (o : Overflow) (r : Registry) (b : Build) {q : Request}
    {x : StatementRequest} (hk : q.kind = .statement)
    (hx : StatementRequest.ofLines q.lines = .ok x) :
    (x.isScannable = true → (o = .breaks → x.fits r b = true) → ∃ a, q.answer o r b = .ok (b, a)) ∧
    ∀ b' a, q.answer o r b = .ok (b', a) → ∃ v : Verdict, a.lines.getLast? = some v.line ∧
      ((v = .fail → ∀ l ∈ x.lines, isVerdict l = false) →
        (v = .success → ∀ c ∈ x.stripped? b, ∀ t ∈ c.comments, '\n' ∉ t.toList) →
          a.IsDelimited) := by
  rw [answer_statement o r b hk hx]
  refine ⟨fun hs hf => ?_, fun b' a ha => ?_⟩
  · obtain ⟨a, ha⟩ := StatementRequest.exists_reply hs hf
    exact ⟨a, by rw [ha]; rfl⟩
  · obtain ⟨a, hreply, rfl, rfl⟩ : ∃ a', x.reply o r b = .ok a' ∧ b = b' ∧ a' = a := by
      cases hreply : x.reply o r b with
      | error f =>
        rw [hreply] at ha
        exact absurd ha nofun
      | ok a' =>
        rw [hreply] at ha
        cases ha
        exact ⟨_, rfl, rfl, rfl⟩
    unfold StatementRequest.reply at hreply
    split at hreply
    next => exact absurd hreply nofun
    next => exact absurd hreply nofun
    next e _ _ =>
      cases hreply
      exact ⟨.fail, getLast?_statement, fun hecho _ => isDelimited_statement (hecho rfl) nofun⟩
    next ws _ =>
      cases hreply
      exact ⟨.eliminated, getLast?_statement, fun _ _ =>
        isDelimited_statement (List.forall_mem_nil _) nofun⟩
    next output text ws hbuilt =>
      cases hreply
      refine ⟨.success, getLast?_statement, fun _ hcomments => ?_⟩
      have hlines := not_isVerdict_of_build hbuilt (hcomments rfl)
      obtain ⟨houtput, htext⟩ := List.forall_mem_append.1 hlines
      have hcount {ls : List (List Char)} (h : ∀ l ∈ ls, isVerdict l = false ∧ l ≠ proseLine) :
          ls.count proseLine = 0 := List.count_eq_zero.2 fun hm => (h _ hm).2 rfl
      refine isDelimited_statement ?_ fun _ => ?_
      · refine List.forall_mem_append.2 ⟨fun l hl => (houtput l hl).1, ?_⟩
        exact List.forall_mem_cons.2 ⟨by decide, fun l hl => (htext l hl).1⟩
      · rw [List.count_append, List.count_cons_self, hcount houtput, hcount htext]

/-- The lines of a request about regions that are counted. -/
private def aboutRegions (statement : List String) : List (List Char) :=
  (["vkCmdCopyRegions", "regions", "1", "least$1"] ++ statement).map (·.toList)

/-- A request whose statement is built with its comment. -/
private def rendered : Request :=
  ⟨.statement, aboutRegions ["# at least", "require(regionCount >= macro(least))"]⟩

/-- The statement that is asked for. -/
private def renderedStatement : StatementRequest where
  api := "vkCmdCopyRegions"
  file := "regions"
  line := 1
  macros := .ofList [("least", "1")]
  lines := ["# at least", "require(regionCount >= macro(least))"].map (·.toList)

/-- The request whose statement is built has a reply, and the client finds its end. -/
theorem isDelimited_answer_rendered : rendered.kind = .statement ∧
    StatementRequest.ofLines rendered.lines = .ok renderedStatement ∧
    ∃ a, rendered.answer .breaks Vu.regionRegistry Vu.regionBuild = .ok (Vu.regionBuild, a) ∧
      a.IsDelimited := by
  have hk : rendered.kind = .statement := rfl
  have hx : StatementRequest.ofLines rendered.lines = .ok renderedStatement := by decide +kernel
  obtain ⟨hanswer, hreply⟩ := isDelimited_answer .breaks Vu.regionRegistry Vu.regionBuild hk hx
  obtain ⟨a, ha⟩ := hanswer (by decide +kernel) fun _ => by decide +kernel
  have hlines : ∀ l ∈ renderedStatement.lines, isVerdict l = false := by decide +kernel
  have hcomments : (renderedStatement.stripped? Vu.regionBuild).all
      (·.comments.all fun t => !t.toList.contains '\n') = true := by decide +kernel
  obtain ⟨v, -, hdelimited⟩ := hreply _ a ha
  refine ⟨hk, hx, a, ha, hdelimited (fun _ => hlines) fun _ c hc t ht => ?_⟩
  have hall := (Option.all_eq_true _ _).1 hcomments c hc
  simpa using List.all_eq_true.1 hall t ht

/-- A request with a statement that is sent back and has a verdict among its lines. -/
private def echoed : Request := ⟨.statement, aboutRegions ["FORMAT-VU-SUCCESS"]⟩

/-- A request with a comment of three lines that is taken for a reference when its markup is read
again. -/
private def commented : Request :=
  ⟨.statement, aboutRegions
    ["__comment('<<\\nFORMAT-VU-TEXT\\n,x>>')", "require(regionCount == 1)"]⟩

/-- A statement that is sent back can have a verdict among its lines, and a comment the line that
parts the renderings. -/
theorem not_isDelimited_answer :
    (echoed.answer .breaks Vu.regionRegistry Vu.regionBuild).map
      (fun a => (a.2.lines.countP isVerdict, decide a.2.IsDelimited)) = .ok (2, false) ∧
    (commented.answer .breaks Vu.regionRegistry Vu.regionBuild).map
      (fun a => (a.2.lines.count proseLine, decide a.2.IsDelimited)) = .ok (3, false) := by
  decide +kernel

end Session
end ValidUsage
