import ValidUsage.Proofs.StripShape
import ValidUsage.Proofs.TokenCover

/-!
# The shape of what a text writes

Every tree that is read is well-formed: what is joined, compared or assigned has enough parts, names
are identifiers, and slices stand in indices only.

Blocks are not empty, but for one case. An indentation is a token of its own in front of the first
token of its line. A line with nothing but joining backslashes has none, and if the indentation
falls back behind it, the block that it opens is empty.
-/

namespace ValidUsage

/-! ## Well-formed trees -/

namespace Expr

/-- Whether an expression is neither a slice nor a tuple with slices. -/
def isPlain (e : Expr) : Bool := !e.isSlice && !e.isSpread

/-- Whether slices stand directly in an expression only where they may: in the index of a subscript,
alone or as elements of the tuple that the index is. -/
def placesSlices : Expr → Bool
  | tuple _ elts => elts.all (!·.isSpread)
  | e => e.valueParts.all isPlain

/-- Whether a value is well-formed: in all its parts, names are identifiers, what is joined or
compared has enough parts, and slices stand where they may. -/
def isWellFormed (e : Expr) : Bool :=
  e.isPlain && e.walk.all fun x => x.isProper && x.placesSlices

private theorem isProper_of_isFormed {fractions : Binary64 → Bool} {e : Expr}
    (h : e.isFormed fractions = true) : e.isProper = true := by
  cases e <;> simp_all [isFormed, isProper]

/-- A node that reading gives has its slices where they may stand. -/
theorem placesSlices_of_isFormed {fractions : Binary64 → Bool} {e : Expr}
    (h : e.isFormed fractions = true) (hg : e.isGathered = true) : e.placesSlices = true := by
  cases e with
  | slice p lower upper step =>
    cases lower <;> cases upper <;> cases step <;>
      simp_all [isFormed, isGathered, placesSlices, valueParts, children, isPlain]
  | _ => simp_all [isFormed, isGathered, placesSlices, valueParts, children, isPlain]

private theorem isWellFormed_of_isSound {kept : Bool} {e : Expr} (hs : e.isSlice = false)
    (hg : e.isSpread = false) (h : ∀ x ∈ e.walk, x.isSound kept = true) :
    e.isWellFormed = true := by
  rw [isWellFormed, isPlain, hs, hg, Bool.not_false, Bool.true_and, Bool.true_and, List.all_eq_true]
  intro x hx
  have hf := isFormed_of_isSound (h x hx)
  rw [isProper_of_isFormed hf, placesSlices_of_isFormed hf (isGathered_of_isSound (h x hx))]
  rfl

end Expr

/-- Whether the expressions of a statement are well-formed, those of its blocks aside, and an
assignment has a target. -/
def Stmt.isWellFormed : Stmt → Bool
  | assign _ targets value =>
    !targets.isEmpty && targets.all Expr.isWellFormed && value.isWellFormed
  | update _ target _ value => target.isWellFormed && value.isWellFormed
  | ifElse _ test _ _ | whileDo _ test _ _ => test.isWellFormed
  | forEach _ target iter _ _ => target.isWellFormed && iter.isWellFormed
  | expr _ value => value.isWellFormed
  | pass _ | breakOut _ | nextRound _ => true

private theorem Stmt.isWellFormed_of_isSound {kept : Bool} {s : Stmt} (hf : s.isFormed = true)
    (hg : s.isGathered = true) (h : ∀ x ∈ s.walk, x.isSound kept = true) :
    s.isWellFormed = true := by
  have value {e : Expr} (hs : e.isSlice = false) (hg : e.isSpread = false)
      (he : ∀ x ∈ e.walk, x.isSound kept = true) : e.isWellFormed = true :=
    Expr.isWellFormed_of_isSound hs hg he
  cases s <;> grind [isWellFormed, isFormed, isGathered, walk, Expr.mem_walkList]

/-- Whether all statements of a block are well-formed. -/
def Block.isWellFormed (b : Block) : Bool := b.statements.all Stmt.isWellFormed

/-- What reading gives is well-formed. -/
theorem Block.IsGiven.isWellFormed {kept : Bool} {b : Block} (h : b.IsGiven kept) :
    b.isWellFormed = true := by
  refine List.all_eq_true.2 fun s hs => ?_
  have hwalk : s.walk ⊆ b.walk :=
    Stmt.walk_subset_of_mem_nestedBlock (fun _ _ => Stmt.walk_subset_of_mem_nested) hs
  exact Stmt.isWellFormed_of_isSound (List.all_eq_true.1 h.statements s hs)
    (List.all_eq_true.1 h.gathered s hs) fun x hx => List.all_eq_true.1 h.nodes x (hwalk hx)

/-! ## Indentations without a token -/

/-- Whether every indentation among tokens is followed by one that does not end its block. -/
def fillsBlocks : List Token → Bool
  | [] => true
  | t :: ts =>
    (t.kind != .indent || ts.head?.any (!Parser.endsBlock true ·)) && fillsBlocks ts

section Fills

variable {t : Token} {l ts : List Token}

private theorem fillsBlocks_cons (h : fillsBlocks (t :: ts) = true) : fillsBlocks ts = true :=
  (Bool.and_eq_true_iff.1 h).2

private theorem fillsBlocks_right (h : fillsBlocks (l ++ ts) = true) : fillsBlocks ts = true := by
  induction l with
  | nil => exact h
  | cons t l ih => exact ih (fillsBlocks_cons h)

private theorem fillsBlocks_append (hl : ∀ t ∈ l, t.kind ≠ .indent) (h : fillsBlocks ts = true) :
    fillsBlocks (l ++ ts) = true := by
  induction l with
  | nil => exact h
  | cons t l ih =>
    obtain ⟨ht, hl⟩ := List.forall_mem_cons.1 hl
    simp [fillsBlocks, ht, ih hl]

/-- The block of an indentation has something in it. -/
theorem exists_head_of_fillsBlocks (ht : t.kind = .indent) (h : fillsBlocks (t :: ts) = true) :
    ∃ t' ∈ ts.head?, Parser.endsBlock true t' = false := by
  cases ts with
  | nil => simp [fillsBlocks, ht] at h
  | cons t' r =>
    refine ⟨t', rfl, ?_⟩
    simpa [fillsBlocks, ht] using (Bool.and_eq_true_iff.1 h).1

end Fills

namespace Lexer

open ValidUsage.Parser (endsBlock isLayout_of_endsBlock)
open Paragraph (EndsLine)

/-- Whether a text goes on to the end of its line, or of a line joined to it, without a token. -/
inductive IsHollow : List Char → Prop
  | ends {s : List Char} (hs : EndsLine s) : IsHollow s
  | skip {s r : List Char} (hs : Skips s r) (h : IsHollow r) : IsHollow s

/-- Whether a text has an indented line that starts with a backslash and has no token, nor have the
lines joined to it. -/
def HasHollowLine (s : List Char) : Prop :=
  ∃ front u r, s = front ++ u ∧ EndsWithLine front ∧ 0 < (indentation 0 u).1 ∧
    (indentation 0 u).2 = '\\' :: r ∧ IsHollow ('\\' :: r)

variable {st : State} {c : Char} {cs : List Char} {ts : List Token}

/-- A line without any token is blank or has a comment, unless it starts with a backslash. -/
theorem IsHollow.eq_backslash (h : IsHollow (c :: cs)) (hc : c ≠ ' ' ∧ c ≠ '\t' ∧ c ≠ '\x0c')
    (hfull : isBlankLine (c :: cs) = false) : c = '\\' := by
  have hne : (c ≠ '#' ∧ c ≠ '\n') ∧ c ≠ '\r' := by simpa [isBlankLine] using hfull
  cases h with
  | ends hs => exact absurd (hs c rfl) hne.1.2
  | skip hs =>
    cases hs with
    | blank hblank =>
      rcases hblank with rfl | rfl | rfl
      · exact absurd rfl hc.1
      · exact absurd rfl hc.2.1
      · exact absurd rfl hc.2.2
    | carriage => exact absurd rfl hne.2
    | comment => exact absurd rfl hne.1.1
    | join | joinCarriage => rfl

/-- What ends a block stands behind a line without any token, if it stands in the line. -/
theorem IsHollow.of_takes {x : Step (c :: cs)} (h : Takes st x) (hst : st.lineStart = false)
    (hts : ∀ t ∈ (x.tokens ++ ts).head?, endsBlock true t = true)
    (ih : x.state.lineStart = false → (∀ t ∈ ts.head?, endsBlock true t = true) →
      IsHollow x.rest) : IsHollow (c :: cs) := by
  cases h with
  | @token t u tokens kind text split depth lineStart =>
    rw [tokens] at hts
    exact absurd (isLayout_of_endsBlock (hts t rfl)) (by rw [kind]; exact nofun)
  | newline char tokens rest depth => exact .ends fun d hd => Option.some.inj hd ▸ char
  | skip tokens skips depth lineStart =>
    rw [tokens] at hts
    exact .skip skips (ih (lineStart.trans hst) hts)

private theorem IsHollow.of_scan (s : List Char) (st : State) (hst : st.lineStart = false)
    {ts : List Token} (h : scan st s = .ok ts)
    (hts : ∀ t ∈ ts.head?, endsBlock true t = true) : IsHollow s := by
  cases s with
  | nil => exact .ends nofun
  | cons c cs =>
    rw [scan_step] at h
    obtain ⟨x, hx, h⟩ := Parser.ok_of_bind h
    obtain ⟨rest, hrest, rfl⟩ := ok_of_map h
    have := x.shorter
    cases advances_step hx with
    | blankLine start | textLine start => exact absurd (start.1.symm.trans hst) nofun
    | inside token =>
      exact .of_takes (takes_token token) rfl hts fun hs hts => of_scan x.rest x.state hs hrest hts
termination_by s.length

private theorem Takes.not_indent {x : Step (c :: cs)} (h : Takes st x) :
    ∀ t ∈ x.tokens, t.kind ≠ .indent := by
  cases h with
  | token tokens kind =>
    rw [tokens]
    rintro t ht hk
    rw [List.mem_singleton.1 ht] at hk
    exact absurd kind (by rw [hk]; exact nofun)
  | newline char tokens =>
    rintro t ht hk
    exact absurd ((tokens t ht).1.symm.trans hk) nofun
  | skip tokens =>
    rw [tokens]
    exact nofun

section Lines

variable {text front : List Char}

/-- In a text without hollow lines, what follows an indentation is in its block. -/
theorem fillsBlocks_step (hfull : ¬HasHollowLine text) (htext : text = front ++ c :: cs)
    (hfront : st.lineStart = true → EndsWithLine front) {x : Step (c :: cs)}
    (hx : step st c cs = .ok x) (hrest : scan x.state x.rest = .ok ts)
    (h : fillsBlocks ts = true) : fillsBlocks (x.tokens ++ ts) = true := by
  cases advances_step hx with
  | blankLine start split blanks indent whole ends blank tokens =>
    rw [tokens]
    exact h
  | @textLine u c' cs' st' y layoutTokens indents start split blanks indent full token inLine depth
      layout tokens rest state =>
    have hy := takes_token token
    have hbehind := fillsBlocks_append hy.not_indent h
    rw [tokens, List.append_assoc]
    rcases layout_opens_or_closes layout with ⟨hwidth, rfl, -⟩ | ⟨closed, -, rfl⟩
    · -- A token that ended the block would leave nothing on the line but backslashes.
      by_contra hnot
      have hends : ∀ t ∈ (y.tokens ++ ts).head?, endsBlock true t = true := by
        intro t' ht'
        rw [List.singleton_append, fillsBlocks, hbehind, Option.mem_def.1 ht'] at hnot
        by_contra hends
        exact hnot (by simp [hends])
      have hhollow : IsHollow (c' :: cs') := by
        refine .of_takes hy inLine hends fun hs hts => ?_
        rw [← rest]
        exact .of_scan x.rest x.state (state ▸ hs) hrest hts
      obtain rfl := hhollow.eq_backslash (indentation_head indent) full
      exact hfull ⟨front, c :: cs, cs', htext, hfront start.1, hwidth, indent, hhollow⟩
    · exact fillsBlocks_append (List.forall_mem_map.2 fun _ _ => TokenKind.noConfusion) hbehind
  | inside token => exact fillsBlocks_append (takes_token token).not_indent h

private theorem fillsBlocks_scan (hfull : ¬HasHollowLine text) {front s : List Char}
    (htext : text = front ++ s) {st : State}
    (hfront : st.lineStart = true → s ≠ [] → EndsWithLine front) {ts : List Token}
    (h : scan st s = .ok ts) : fillsBlocks ts = true := by
  cases s with
  | nil =>
    rw [scan] at h
    rw [← List.append_nil ts]
    exact fillsBlocks_append (fun t ht => (ends_of_mem_finish h t ht).2.2) rfl
  | cons c cs =>
    rw [scan_step] at h
    obtain ⟨x, hx, h⟩ := Parser.ok_of_bind h
    obtain ⟨rest, hrest, rfl⟩ := ok_of_map h
    obtain ⟨taken, hsplit, hends⟩ := (advances_step hx).split_rest
    have htext' : text = front ++ taken ++ x.rest :=
      htext.trans ((congrArg (front ++ ·) hsplit).trans (List.append_assoc _ _ _).symm)
    have := x.shorter
    refine fillsBlocks_step hfull htext (fun hs => hfront hs (List.cons_ne_nil _ _)) hx hrest ?_
    exact fillsBlocks_scan hfull htext' (fun hs hne => .append (hends hs hne)) hrest
termination_by s.length

end Lines

end Lexer

/-! ## Blocks -/

/-- Whether the first block of every statement of a block has statements. -/
def Block.IsWhole (b : Block) : Prop := b.statements.all Stmt.hasBody = true

namespace Block

variable {s : Stmt} {b b' body orelse : Block}

private theorem isWhole_append (h : b.IsWhole) (h' : b'.IsWhole) : IsWhole (b ++ b') := by
  rw [IsWhole, statements_append, List.all_append, h, h']
  rfl

private theorem isFilled_append (h : b.isFilled = true) (h' : b'.IsWhole) :
    isFilled (b ++ b') = true := by
  obtain ⟨hne, h⟩ := Bool.and_eq_true_iff.1 h
  rw [isFilled, Bool.and_eq_true]
  exact ⟨by simp_all, isWhole_append h h'⟩

private theorem IsWhole.of_isFilled (h : b.isFilled = true) :
    b.IsWhole := (Bool.and_eq_true_iff.1 h).2

/-- A statement with blocks has a first block with statements, if that block has. -/
theorem isFilled_of_nested (hs : s.nested = s :: (body.statements ++ orelse.statements))
    (hbody : s.hasBody = !body.isEmpty) (hb : body.isFilled = true) (ho : orelse.IsWhole) :
    isFilled [s] = true := by
  obtain ⟨hne, hb⟩ := Bool.and_eq_true_iff.1 hb
  have hb : body.statements.all Stmt.hasBody = true := hb
  have ho : orelse.statements.all Stmt.hasBody = true := ho
  rw [isFilled, Parser.statements_singleton, hs, List.all_cons, List.all_append, hbody, hne, hb, ho]
  rfl

end Block

namespace Parser

/-- Whether tokens are sound and no indentation among them opens an empty block. -/
structure AreFilled (ts : List Token) : Prop where
  sound : AreSound false ts
  blocks : fillsBlocks ts = true

variable {ts r : List Token}

private theorem Passes.areFilled {C : List Bool → Prop} (h : Passes C ts r) (hts : AreFilled ts) :
    AreFilled r := by
  refine ⟨h.areSound hts.sound, ?_⟩
  obtain ⟨pre, rfl, -⟩ := h
  exact fillsBlocks_right hts.blocks

/-- Whether what is read has a property. -/
def Yields {α : Type} {n : Nat} (P : α → Prop) (x : Parse α n) : Prop :=
  ∀ v r h, x = .ok ⟨v, r, h⟩ → P v

/-- Whether a statement is one without an empty first block in it. -/
def IsFilledStmt (s : Stmt) : Prop := Block.isFilled [s] = true

private theorem isFilled_wordStmt? {t : Token} {s : Stmt} (h : wordStmt? t = some s) :
    IsFilledStmt s := by
  unfold wordStmt? at h
  split at h
  · split at h
    · obtain rfl := Option.some.inj h; rfl
    split at h
    · obtain rfl := Option.some.inj h; rfl
    split at h
    · obtain rfl := Option.some.inj h; rfl
    · exact absurd h nofun
  · exact absurd h nofun

private theorem yields_simpleStmt (ts : List Token) : Yields IsFilledStmt (simpleStmt ts) := by
  intro v r h hv
  cases ts with
  | nil =>
    rw [simpleStmt] at hv
    cases hv
  | cons t ts =>
    rw [simpleStmt] at hv
    split at hv
    · rename_i s hword
      cases hv
      exact isFilled_wordStmt? hword
    · obtain ⟨⟨first, r₁, h₁⟩, -, hv⟩ := ok_of_bind hv
      obtain ⟨⟨others, r₂, h₂⟩, -, hv⟩ := ok_of_bind hv
      dsimp only at hv
      split at hv
      · cases hv
        rfl
      · split at hv
        · cases hv
          rfl
        · obtain ⟨⟨value, r₃, h₃⟩, -, hv⟩ := ok_of_bind hv
          cases hv
          rfl

private theorem yields_simpleRest (ts : List Token) : Yields Block.IsWhole (simpleRest ts) := by
  intro v r h hv
  rw [simpleRest] at hv
  split at hv
  · cases hv
    rfl
  · rename_i r₁ h₁ heat
    split at hv
    · cases hv
      rfl
    · obtain ⟨⟨s, r₂, h₂⟩, hstmt, hv⟩ := ok_of_bind hv
      obtain ⟨⟨ss, r₃, h₃⟩, hss, hv⟩ := ok_of_bind hv
      cases hv
      have hs := yields_simpleStmt _ _ _ _ hstmt
      exact Block.isWhole_append (.of_isFilled hs) (yields_simpleRest r₂ _ _ _ hss)
termination_by ts.length

private theorem yields_simpleStmts (ts : List Token) :
    Yields (Block.isFilled · = true) (simpleStmts ts) := by
  intro v r h hv
  rw [simpleStmts] at hv
  obtain ⟨⟨s, r₁, h₁⟩, hstmt, hv⟩ := ok_of_bind hv
  obtain ⟨⟨ss, r₂, h₂⟩, hss, hv⟩ := ok_of_bind hv
  have hs := yields_simpleStmt _ _ _ _ hstmt
  have hrest := yields_simpleRest _ _ _ _ hss
  dsimp only at hv
  split at hv
  · split at hv
    · cases hv
      exact Block.isFilled_append hs hrest
    · cases hv
  · cases hv

/-- What reading tokens as statements gives, if no indentation opens an empty block. -/
structure StatementsFill (ts : List Token) : Prop where
  statements (inside : Bool) : Yields Block.IsWhole (statements inside ts)
  filled (inside : Bool) (h : ∃ t ∈ ts.head?, endsBlock inside t = false) :
    Yields (Block.isFilled · = true) (Parser.statements inside ts)
  statement : Yields (Block.isFilled · = true) (statement ts)
  ifStmt (p : Pos) : Yields IsFilledStmt (ifStmt p ts)
  elseBlock : Yields Block.IsWhole (elseBlock ts)
  block : Yields (Block.isFilled · = true) (block ts)

section Statements

variable (hts : AreFilled ts) (ih : ∀ r, r.length < ts.length → AreFilled r → StatementsFill r)

include hts ih

private theorem yields_filled {inside : Bool}
    (hst : Yields (Block.isFilled · = true) (statement ts))
    (hends : ∃ t ∈ ts.head?, endsBlock inside t = false) :
    Yields (Block.isFilled · = true) (statements inside ts) := by
  intro v r h hv
  obtain ⟨t, ht, hends⟩ := hends
  cases ts with
  | nil => exact absurd ht nofun
  | cons t' ts =>
    obtain rfl : t' = t := by simpa using ht
    rw [statements, hends] at hv
    obtain ⟨⟨ss, r₁, h₁⟩, hss, hv⟩ := ok_of_bind hv
    have hp := ((statementsGive _ hts.sound).statement _ _ _ hss).1
    obtain ⟨⟨ss', r₂, h₂⟩, hss', hv⟩ := ok_of_bind hv
    cases hv
    exact Block.isFilled_append (hst _ _ _ hss)
      ((ih r₁ h₁ (hp.areFilled hts)).statements inside _ _ _ hss')

private theorem yields_statements {inside : Bool}
    (hst : Yields (Block.isFilled · = true) (statement ts)) :
    Yields Block.IsWhole (statements inside ts) := by
  intro v r h hv
  cases ts with
  | nil =>
    rw [statements] at hv
    cases hv
    rfl
  | cons t ts =>
    cases hends : endsBlock inside t with
    | true =>
      rw [statements, hends] at hv
      cases hv
      rfl
    | false => exact .of_isFilled (yields_filled hts ih hst ⟨t, rfl, hends⟩ _ _ _ hv)

private theorem yields_block : Yields (Block.isFilled · = true) (block ts) := by
  intro v r h hv
  cases ts with
  | nil => rw [block.eq_def] at hv; exact absurd hv nofun
  | cons t ts =>
    rw [block.eq_def] at hv
    dsimp only at hv
    split at hv
    · rename_i hk
      cases ts with
      | nil => exact absurd hv nofun
      | cons t' ts =>
        dsimp only at hv
        split at hv
        · rename_i hk'
          have hp : Passes AtTop (t :: t' :: ts) ts :=
            (Passes.layout (by rw [hk]; rfl) _).trans (.layout (by rw [hk']; rfl) _)
          obtain ⟨⟨body, r₁, h₁⟩, hbody, hv⟩ := ok_of_bind hv
          have hlt : ts.length < (t :: t' :: ts).length := by
            simp only [List.length_cons]
            omega
          have hends := exists_head_of_fillsBlocks hk' (fillsBlocks_cons hts.blocks)
          cases hv
          exact (ih ts hlt (hp.areFilled hts)).filled true hends _ _ _ hbody
        · exact absurd hv nofun
    · exact yields_simpleStmts _ _ _ _ hv

private theorem yields_elseBlock : Yields Block.IsWhole (elseBlock ts) := by
  intro v r h hv
  rw [elseBlock] at hv
  split at hv
  · cases hv
    rfl
  · rename_i r₀ h₀ heat
    obtain ⟨t, rfl, ht⟩ := eq_cons_of_eat? heat
    obtain ⟨⟨r₁, h₁⟩, hcolon, hv⟩ := ok_of_bind hv
    obtain ⟨t', rfl, ht'⟩ := eq_cons_of_expect hcolon
    have hp : Passes AtTop (t :: t' :: r₁) r₁ :=
      (Passes.plain (.of_is ht (by decide)) _).trans (.colon_top ht' r₁)
    obtain ⟨⟨body, r₂, h₂⟩, hbody, hv⟩ := ok_of_bind hv
    cases hv
    exact .of_isFilled ((ih r₁ (Nat.lt_trans h₁ h₀) (hp.areFilled hts)).block _ _ _ hbody)

private theorem yields_ifStmt (p : Pos) : Yields IsFilledStmt (ifStmt p ts) := by
  intro v r h hv
  rw [ifStmt] at hv
  obtain ⟨⟨cond, r₁, h₁⟩, hcond, hv⟩ := ok_of_bind hv
  have hp := ((readingGives ts hts.sound).test _ _ _ hcond).1
  obtain ⟨⟨r₂, h₂⟩, hcolon, hv⟩ := ok_of_bind hv
  obtain ⟨t, rfl, ht⟩ := eq_cons_of_expect hcolon
  have hp : Passes AtTop ts r₂ := (Passes.mono hp).trans (.colon_top ht r₂)
  obtain ⟨⟨body, r₃, h₃⟩, hbody, hv⟩ := ok_of_bind hv
  have hlt : r₂.length < ts.length := Nat.lt_trans h₂ h₁
  have hfill := (ih r₂ hlt (hp.areFilled hts)).block _ _ _ hbody
  have hp := hp.trans ((statementsGive r₂ (hp.areSound hts.sound)).block _ _ _ hbody).1
  have hlt : r₃.length < ts.length := Nat.lt_trans h₃ hlt
  dsimp only at hv
  split at hv
  · rename_i r₄ h₄ heat
    obtain ⟨t', rfl, ht'⟩ := eq_cons_of_eat? heat
    have hp := hp.trans (.plain (.of_is ht' (by decide)) r₄)
    obtain ⟨⟨s, r₅, h₅⟩, hstmt, hv⟩ := ok_of_bind hv
    have hs := (ih r₄ (Nat.lt_trans h₄ hlt) (hp.areFilled hts)).ifStmt _ _ _ _ hstmt
    cases hv
    exact Block.isFilled_of_nested rfl rfl hfill (.of_isFilled hs)
  · obtain ⟨⟨orelse, r₄, h₄⟩, horelse, hv⟩ := ok_of_bind hv
    have hwhole := (ih r₃ hlt (hp.areFilled hts)).elseBlock _ _ _ horelse
    cases hv
    exact Block.isFilled_of_nested rfl rfl hfill hwhole

private theorem yields_statement : Yields (Block.isFilled · = true) (statement ts) := by
  intro v r h hv
  cases ts with
  | nil => rw [statement] at hv; cases hv
  | cons t ts =>
    have hlt := length_lt_cons t ts
    have word (hk : t.kind = .name) : Passes AtTop (t :: ts) ts :=
      .plain (.of_isWord (hts.sound.words t List.mem_cons_self hk)) ts
    rw [statement] at hv
    split at hv
    · cases hv
    split at hv
    · rename_i hif
      obtain ⟨⟨s, r₁, h₁⟩, hstmt, hv⟩ := ok_of_bind hv
      cases hv
      exact (ih ts hlt ((word hif.1).areFilled hts)).ifStmt _ _ _ _ hstmt
    split at hv
    · rename_i hfor
      have hp := word hfor.1
      obtain ⟨⟨target, r₁, h₁⟩, htarget, hv⟩ := ok_of_bind hv
      have hp := hp.trans (.mono
        ((readingGives ts hts.sound.tail).sequence .targets _ _ _ htarget).1)
      obtain ⟨⟨r₂, h₂⟩, hin, hv⟩ := ok_of_bind hv
      obtain ⟨t₁, rfl, ht₁⟩ := eq_cons_of_expect hin
      have hp := hp.trans (.plain (.of_is ht₁ (by decide)) r₂)
      obtain ⟨⟨iter, r₃, h₃⟩, hiter, hv⟩ := ok_of_bind hv
      have hp := hp.trans (.mono
        ((readingGives r₂ (hp.areSound hts.sound)).sequence .values _ _ _ hiter).1)
      obtain ⟨⟨r₄, h₄⟩, hcolon, hv⟩ := ok_of_bind hv
      obtain ⟨t₂, rfl, ht₂⟩ := eq_cons_of_expect hcolon
      have hp := hp.trans (.colon_top ht₂ r₄)
      have hlt : r₄.length < (t :: ts).length :=
        Nat.lt_trans h₄ (Nat.lt_trans h₃ (Nat.lt_trans h₂ (lt_length_cons t h₁)))
      obtain ⟨⟨body, r₅, h₅⟩, hbody, hv⟩ := ok_of_bind hv
      have hfill := (ih r₄ hlt (hp.areFilled hts)).block _ _ _ hbody
      have hp := hp.trans ((statementsGive r₄ (hp.areSound hts.sound)).block _ _ _ hbody).1
      obtain ⟨⟨orelse, r₆, h₆⟩, horelse, hv⟩ := ok_of_bind hv
      have hwhole := (ih r₅ (Nat.lt_trans h₅ hlt) (hp.areFilled hts)).elseBlock _ _ _ horelse
      cases hv
      exact Block.isFilled_of_nested rfl rfl hfill hwhole
    split at hv
    · rename_i hwhile
      have hp := word hwhile.1
      obtain ⟨⟨cond, r₁, h₁⟩, hcond, hv⟩ := ok_of_bind hv
      have hp := hp.trans (.mono ((readingGives ts hts.sound.tail).test _ _ _ hcond).1)
      obtain ⟨⟨r₂, h₂⟩, hcolon, hv⟩ := ok_of_bind hv
      obtain ⟨t₁, rfl, ht₁⟩ := eq_cons_of_expect hcolon
      have hp := hp.trans (.colon_top ht₁ r₂)
      have hlt : r₂.length < (t :: ts).length := Nat.lt_trans h₂ (lt_length_cons t h₁)
      obtain ⟨⟨body, r₃, h₃⟩, hbody, hv⟩ := ok_of_bind hv
      have hfill := (ih r₂ hlt (hp.areFilled hts)).block _ _ _ hbody
      have hp := hp.trans ((statementsGive r₂ (hp.areSound hts.sound)).block _ _ _ hbody).1
      obtain ⟨⟨orelse, r₄, h₄⟩, horelse, hv⟩ := ok_of_bind hv
      have hwhole := (ih r₃ (Nat.lt_trans h₃ hlt) (hp.areFilled hts)).elseBlock _ _ _ horelse
      cases hv
      exact Block.isFilled_of_nested rfl rfl hfill hwhole
    · exact yields_simpleStmts _ _ _ _ hv

end Statements

private theorem statementsFill (ts : List Token) (hts : AreFilled ts) : StatementsFill ts := by
  induction hn : ts.length using Nat.strongRecOn generalizing ts with
  | _ n ih =>
    have ih (r : List Token) (hr : r.length < ts.length) (hs : AreFilled r) : StatementsFill r :=
      ih r.length (hn ▸ hr) r hs rfl
    have hst := yields_statement hts ih
    exact {
      statements := fun _ => yields_statements hts ih hst
      filled := fun _ hends => yields_filled hts ih hst hends
      statement := hst
      ifStmt := yields_ifStmt hts ih
      elseBlock := yields_elseBlock hts ih
      block := yields_block hts ih }

end Parser

open Lexer in
/-- What a text writes is well-formed, and every `if`, `for` and `while` in it has a statement in
its first block, unless the text has an indented line of nothing but joining backslashes and its
block ends behind that line. -/
theorem parse_isWellFormed {s : List Char} {b : Block} (h : parse s = .ok b) :
    b.isWellFormed = true ∧ (b.statements.all Stmt.hasBody = true ∨
      HasHollowLine s ∧ ∃ ts, tokenize s = .ok ts ∧ fillsBlocks ts = false) := by
  have hkept : false = true → Paragraph.CallsComments s := nofun
  refine ⟨(isGiven_of_parse hkept h).isWellFormed, ?_⟩
  obtain ⟨ts, hts, hb⟩ := Parser.ok_of_bind h
  cases hfills : fillsBlocks ts with
  | true =>
    obtain ⟨⟨v, r, h'⟩, hv, hb⟩ := Parser.ok_of_bind hb
    cases hb
    have hfilled : Parser.AreFilled ts := ⟨areSound_scan s .init hkept hts, hfills⟩
    exact .inl ((Parser.statementsFill ts hfilled).statements false _ _ _ hv)
  | false =>
    refine .inr ⟨?_, ts, hts, hfills⟩
    by_contra hfull
    have hfront : EndsWithLine [] := fun _ hc => absurd hc nofun
    have hall := fillsBlocks_scan hfull (List.nil_append s).symm (fun _ _ => hfront) hts
    exact absurd (hall.symm.trans hfills) nofun

/-- A condition in a loop: behind its colon stands a line of a backslash, with the requirement on
the line that it joins. -/
theorem parse_isWellFormed_loop :
    let s := "for i in a:\n  x = b[1:2, i]\n  if x < i <= 2:\n    \\\n require(x)\n".toList
    ∃ b, parse s = .ok b ∧ b.isWellFormed = true ∧ b.statements.length = 4 ∧
      b.statements.all Stmt.hasBody = true := by
  intro s
  have hfills : (tokenize s).toOption.any fillsBlocks = true := by decide +kernel
  have hlength : (parse s).toOption.any (·.statements.length = 4) = true := by decide +kernel
  cases hb : parse s with
  | error e =>
    rw [hb] at hlength
    exact absurd hlength nofun
  | ok b =>
    rw [hb] at hlength
    obtain ⟨hformed, hbody | ⟨-, ts, hts, hfalse⟩⟩ := parse_isWellFormed hb
    · exact ⟨b, rfl, hformed, of_decide_eq_true hlength, hbody⟩
    · rw [hts] at hfills
      exact absurd (hfalse.symm.trans hfills) nofun

/-- The line that a backslash joins is blank: the condition has nothing in its block. -/
theorem parse_leaves_block_empty :
    let s := "if a:\n  \\\n\nrequire(b)".toList
    ∃ b, parse s = .ok b ∧ b.statements.all Stmt.hasBody = false := by
  intro s
  have hempty : (parse s).toOption.any (!·.statements.all Stmt.hasBody) = true := by
    decide +kernel
  cases hb : parse s with
  | error e =>
    rw [hb] at hempty
    exact absurd hempty nofun
  | ok b =>
    rw [hb] at hempty
    exact ⟨b, rfl, Bool.not_eq_true' _ ▸ hempty⟩

end ValidUsage
