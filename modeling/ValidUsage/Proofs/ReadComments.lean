import ValidUsage.Proofs.ReadAlong
import ValidUsage.Proofs.ReadBlocks
import ValidUsage.Proofs.ReadStmt

/-!
# Reading statements with comments between them

Tokens of comment lines may be put in front of a statement, and in front of the end of a block or of
the text: statements are read as before, but for the comments. They must not stand in front of a
deeper indentation, where a block is expected to begin, nor in front of `elif` and `else`, which
continue the statement before them.
-/

namespace ValidUsage

/-- Whether all names in a block are admitted. -/
def Block.hasNames (ok : String → Bool) (b : Block) : Bool := b.walk.all fun e => e.name?.all ok

namespace Block

variable {ok : String → Bool}

private theorem hasNames_cons (s : Stmt) (b : Block) :
    hasNames ok (s :: b) = (s.walk.all (fun e => e.name?.all ok) && hasNames ok b) := by
  simp [hasNames, walk, Stmt.walkBlock]

private theorem hasNames_append (b b' : Block) :
    hasNames ok (b ++ b') = (hasNames ok b && hasNames ok b') := by
  induction b with
  | nil => rfl
  | cons s b ih => rw [List.cons_append, hasNames_cons, hasNames_cons, ih, Bool.and_assoc]

/-- Two blocks without positions and comments. -/
theorem bare_append (b b' : Block) : bare (b ++ b') = bare b ++ bare b' := by
  induction b with
  | nil => rfl
  | cons s ss ih =>
    simp only [bare, List.cons_append, Stmt.bareBlockBy] at ih ⊢
    split <;> simp [ih]

/-- Whether the names in a block are admitted, and another one is the same but for positions and
comments. -/
structure IsRespelled (ok : String → Bool) (b b' : Block) : Prop where
  bare : b'.bare = b.bare
  names : b.hasNames ok = true

/-- Blocks one after the other are respelled when each of them is. -/
theorem IsRespelled.append {b b' c c' : Block} (h : IsRespelled ok b b')
    (h' : IsRespelled ok c c') : IsRespelled ok (b ++ c) (b' ++ c') where
  bare := by rw [bare_append, bare_append, h.bare, h'.bare]
  names := by rw [hasNames_append, h.names, h'.names]; rfl

private theorem isRespelled_nil : IsRespelled ok [] [] := ⟨rfl, rfl⟩

/-- A statement without blocks is its own. -/
theorem isRespelled_self {s : Stmt} (h : s.walk.all (fun e => e.name?.all ok) = true) :
    IsRespelled ok [s] [s] :=
  ⟨rfl, by rw [hasNames_cons, h]; rfl⟩

section Compound

variable {p : Pos} {cond target iter : Expr} {body body' orelse orelse' : Block}

private theorem isRespelled_ifElse (hc : cond.hasNames ok = true) (hb : IsRespelled ok body body')
    (ho : IsRespelled ok orelse orelse') :
    IsRespelled ok [.ifElse p cond body orelse] [.ifElse p cond body' orelse'] where
  bare := by
    have hb := hb.bare
    have ho := ho.bare
    simp only [bare] at hb ho
    simp [bare, Stmt.bareBlockBy, Stmt.isComment, Stmt.comment?, Stmt.bareBy, hb, ho]
  names := by
    have hb := hb.names
    have ho := ho.names
    simp only [hasNames, walk, Expr.hasNames] at hb ho hc
    simp [hasNames, walk, Stmt.walkBlock, Stmt.walk, List.all_append, hc, hb, ho]

private theorem isRespelled_whileDo (hc : cond.hasNames ok = true) (hb : IsRespelled ok body body')
    (ho : IsRespelled ok orelse orelse') :
    IsRespelled ok [.whileDo p cond body orelse] [.whileDo p cond body' orelse'] where
  bare := by
    have hb := hb.bare
    have ho := ho.bare
    simp only [bare] at hb ho
    simp [bare, Stmt.bareBlockBy, Stmt.isComment, Stmt.comment?, Stmt.bareBy, hb, ho]
  names := by
    have hb := hb.names
    have ho := ho.names
    simp only [hasNames, walk, Expr.hasNames] at hb ho hc
    simp [hasNames, walk, Stmt.walkBlock, Stmt.walk, List.all_append, hc, hb, ho]

private theorem isRespelled_forEach (ht : target.hasNames ok = true) (hi : iter.hasNames ok = true)
    (hb : IsRespelled ok body body') (ho : IsRespelled ok orelse orelse') :
    IsRespelled ok [.forEach p target iter body orelse] [.forEach p target iter body' orelse'] where
  bare := by
    have hb := hb.bare
    have ho := ho.bare
    simp only [bare] at hb ho
    simp [bare, Stmt.bareBlockBy, Stmt.isComment, Stmt.comment?, Stmt.bareBy, hb, ho]
  names := by
    have hb := hb.names
    have ho := ho.names
    simp only [hasNames, walk, Expr.hasNames] at hb ho ht hi
    simp [hasNames, walk, Stmt.walkBlock, Stmt.walk, List.all_append, ht, hi, hb, ho]

end Compound
end Block

namespace Parser

open Block (IsRespelled isRespelled_nil isRespelled_self isRespelled_ifElse isRespelled_whileDo
  isRespelled_forEach)

/-- Whether tokens are those of a comment line: the call that stands for the comment and the end of
the line. -/
def IsCommentLine (ts : List Token) : Prop :=
  ∃ text c t, ts = c ++ [t] ∧ Spells c [.comment text] ∧ t.kind = .newline

/-- Whether a comment may stand in front of tokens. -/
def AdmitsComment (r : List Token) : Prop := (peek r).kind ≠ .indent ∧ EndsStmt r

/-- Whether a list of tokens is another one with tokens of comment lines put where lines start;
`start` tells whether a line may start at the front. The positions of layout may differ, and the
names in the other list are admitted. -/
inductive Commented (ok : String → Bool) : Bool → List Token → List Token → Prop
  | nil {start : Bool} : Commented ok start [] []
  | token {start : Bool} {t : Token} {r r' : List Token} (hl : t.kind.isLayout = false)
    (hn : t.kind = .name → ok t.text = true) (h : Commented ok false r r') :
    Commented ok start (t :: r) (t :: r')
  | layout {start : Bool} {t t' : Token} {r r' : List Token} (hl : t.kind.isLayout = true)
    (hk : t'.kind = t.kind) (ht : t'.text = t.text) (h : Commented ok true r r') :
    Commented ok start (t :: r) (t' :: r')
  | comment {c r r' : List Token} (hc : IsCommentLine c) (hr : AdmitsComment r)
    (h : Commented ok true r r') : Commented ok true r (c ++ r')

variable {ok : String → Bool} {ts ts' r r' : List Token}

private theorem Commented.isAlong (ok : String → Bool) : IsAlong ok (Commented ok false) where
  nil h := by
    cases h
    rfl
  cons h := by
    cases h with
    | token hl hn h => exact ⟨_, _, rfl, rfl, rfl, fun _ => ⟨rfl, h⟩⟩
    | layout hl hk ht h => exact ⟨_, _, rfl, hk, ht, fun hl' => absurd hl (by simp [hl'])⟩
  name h hk := by
    cases h with
    | token hl hn h => exact hn hk
    | layout hl hk' ht h => rw [hk] at hl; exact absurd hl nofun

/-- Without a comment a list of tokens is itself. -/
theorem Commented.refl {start : Bool} (h : ∀ t ∈ ts, t.kind = .name → ok t.text = true) :
    Commented ok start ts ts := by
  induction ts generalizing start with
  | nil => exact .nil
  | cons t ts ih =>
    obtain ⟨ht, hts⟩ := List.forall_mem_cons.1 h
    cases hl : t.kind.isLayout with
    | false => exact .token hl ht (ih hts)
    | true => exact .layout hl rfl rfl (ih hts)

/-- Lines may start where they need not. -/
theorem Commented.start (h : Commented ok false ts ts') : Commented ok true ts ts' := by
  cases h with
  | nil => exact .nil
  | token hl hn h => exact .token hl hn h
  | layout hl hk ht h => exact .layout hl hk ht h

/-- Where no comment may stand there is none. -/
theorem Commented.along (h : Commented ok true ts ts') (hts : ¬AdmitsComment ts) :
    Commented ok false ts ts' := by
  cases h with
  | nil => exact .nil
  | token hl hn h => exact .token hl hn h
  | layout hl hk ht h => exact .layout hl hk ht h
  | comment hc hr h => exact absurd hr hts

/-- A comment line begins with the name that stands for comments. -/
theorem IsCommentLine.eq_cons {c : List Token} (h : IsCommentLine c) :
    ∃ t c', c = t :: c' ∧ t.kind = .name ∧ t.text = commentName := by
  obtain ⟨text, c, t, rfl, hc, -⟩ := h
  obtain ⟨t₁, c, rfl, h₁, -⟩ := List.map_eq_cons_iff.1 hc
  simp only [Token.bare, Prod.mk.injEq] at h₁
  exact ⟨t₁, c ++ [t], rfl, h₁.1, h₁.2⟩

/-- A word that continues a statement is next in both lists or in none of them. -/
theorem Commented.at? (h : Commented ok true ts ts') {w : String} (hw : w = "elif" ∨ w = "else") :
    at? w ts' = Parser.at? w ts := by
  have along (h : Commented ok false ts ts') := (Commented.isAlong ok).is h w
  cases h with
  | nil => rfl
  | token hl hn h => exact along (.token hl hn h)
  | layout hl hk ht h => exact along (.layout hl hk ht h)
  | comment hc hr h =>
    obtain ⟨t, c', rfl, -, htext⟩ := hc.eq_cons
    have hno : Parser.at? w ts = false := by
      rcases hw with rfl | rfl
      · exact hr.2.1
      · exact hr.2.2
    rw [hno]
    refine is_eq_false (t := t) ?_
    rw [htext]
    rcases hw with rfl | rfl <;> decide

private theorem Commented.endsStmt (h : Commented ok true ts ts') (hr : EndsStmt ts) :
    EndsStmt ts' :=
  ⟨(h.at? (.inl rfl)).trans hr.1, (h.at? (.inr rfl)).trans hr.2⟩

/-- Comments may stand where a block closes. -/
theorem Commented.closeBlock (h : Commented ok false ts ts') :
    Commented ok true (closeBlock ts).1 (closeBlock ts').1 := by
  cases h with
  | nil => exact .nil
  | @token _ t r r' hl hn h =>
    have hk : t.kind ≠ .endMarker := fun hk => by rw [hk] at hl; exact absurd hl nofun
    simp only [Parser.closeBlock, hk, if_false]
    exact h.start
  | @layout _ t t' r r' hl hk ht h =>
    simp only [Parser.closeBlock, hk]
    split
    · exact .layout hl hk ht h
    · exact h

/-- A word that continues a statement is eaten off both lists or off none of them. -/
theorem Commented.eat (h : Commented ok true ts ts') {w : String} (hw : w = "elif" ∨ w = "else") :
    (eat? w ts = none ∧ eat? w ts' = none) ∨ ∃ r h r' h', eat? w ts = some ⟨r, h⟩ ∧
      eat? w ts' = some ⟨r', h'⟩ ∧ Commented ok false r r' ∧ peek ts' = peek ts := by
  cases hat : Parser.at? w ts with
  | false => exact .inl ⟨eat?_of_at? hat, eat?_of_at? ((h.at? hw).trans hat)⟩
  | true =>
    refine (Commented.isAlong ok).eat (h.along fun hr => ?_) w
    rcases hw with rfl | rfl
    · exact absurd (hr.2.1.symm.trans hat) nofun
    · exact absurd (hr.2.2.symm.trans hat) nofun

/-- Whether a second reader reads a related value and leaves related tokens. -/
def Agrees {α : Type} {n n' : Nat} (V : α → α → Prop) (R : List Token → List Token → Prop)
    (x : Parse α n) (x' : Parse α n') : Prop :=
  ∀ v r h, x = .ok ⟨v, r, h⟩ → ∃ v' r' h', x' = .ok ⟨v', r', h'⟩ ∧ V v v' ∧ R r r'

section Agrees

variable {α β : Type} {n n' m m' : Nat} {R S : List Token → List Token → Prop} {P : α → Prop}
  {V : α → α → Prop} {W : β → β → Prop} {x : Parse α n} {x' : Parse α n'}
  {f : Read α n → Parse β m} {f' : Read α n' → Parse β m'}

/-- A second reader agrees on two steps when it agrees on each. -/
theorem Agrees.bind (hx : Agrees V R x x')
    (hf : ∀ v r h v' r' h', V v v' → R r r' → Agrees W S (f ⟨v, r, h⟩) (f' ⟨v', r', h'⟩)) :
    Agrees W S (x >>= f) (x' >>= f') := by
  intro v r h hv
  obtain ⟨⟨a, r₁, h₁⟩, ha, hv⟩ := ok_of_bind hv
  obtain ⟨a', r₁', h₁', ha', hV, hR⟩ := hx a r₁ h₁ ha
  rw [ha']
  exact hf a r₁ h₁ a' r₁' h₁' hV hR v r h hv

private theorem ReadsAlong.agrees (hx : ReadsAlong R P x x') :
    Agrees (fun v v' => v' = v ∧ P v) R x x' :=
  fun v r h hv =>
    let ⟨hP, r', h', hx', hR⟩ := hx v r h hv
    ⟨v, r', h', hx', ⟨rfl, hP⟩, hR⟩

/-- It agrees on a second step when it goes along with the first and agrees on the second. -/
theorem ReadsAlong.then (hx : ReadsAlong R P x x')
    (hf : ∀ v r h r' h', P v → R r r' → Agrees W S (f ⟨v, r, h⟩) (f' ⟨v, r', h'⟩)) :
    Agrees W S (x >>= f) (x' >>= f') :=
  hx.agrees.bind fun v r h v' r' h' hV hR => by
    obtain ⟨rfl, hP⟩ := hV
    exact hf v' r h r' h' hP hR

/-- It agrees on what is read already. -/
theorem Agrees.read {v v' : α} {h : r.length < n} {h' : r'.length < n'} (hv : V v v')
    (hR : R r r') : Agrees V R (.ok ⟨v, r, h⟩) (.ok ⟨v', r', h'⟩ : Parse α n') := by
  rintro _ _ _ he
  cases he
  exact ⟨v', r', h', rfl, hv, hR⟩

/-- There is nothing to agree on where nothing is read. -/
theorem Agrees.error {e : SyntaxError} : Agrees V R (.error e : Parse α n) x' := nofun

/-- A second reader agrees on what stands behind a text that is expected. -/
theorem Commented.expect {W : β → β → Prop} (h : Commented ok false ts ts') (text : String)
    {f : { r : List Token // r.length < ts.length } → Parse β m}
    {f' : { r : List Token // r.length < ts'.length } → Parse β m'}
    (hf : ∀ r h r' h', Commented ok false r r' → Agrees W S (f ⟨r, h⟩) (f' ⟨r', h'⟩)) :
    Agrees W S (expect text ts >>= f) (expect text ts' >>= f') := by
  rcases (Commented.isAlong ok).eat h text with ⟨h₁, -⟩ | ⟨r, h, r', h', h₁, h₂, hr, -⟩
  · rw [Parser.expect, h₁]
    exact Agrees.error
  · rw [Parser.expect, Parser.expect, h₁, h₂]
    exact hf r h r' h' hr

end Agrees

/-! ## Statements of a line -/

/-- What a statement without blocks is read as along another list. -/
def IsOwn (ok : String → Bool) (s s' : Stmt) : Prop :=
  s' = s ∧ s.walk.all (fun e => e.name?.all ok) = true

private theorem IsOwn.respelled {s s' : Stmt} (h : IsOwn ok s s') : IsRespelled ok [s] [s'] := by
  obtain ⟨rfl, h⟩ := h
  exact isRespelled_self h

private theorem along_assigned (ts ts' : List Token) (h : Commented ok false ts ts') :
    ReadsAlong (Commented ok false) (AllNamed ok) (assigned ts) (assigned ts') := by
  have hA := Commented.isAlong ok
  rw [assigned, assigned]
  rcases hA.eat h "=" with ⟨h₁, h₂⟩ | ⟨r, hlt, r', hlt', h₁, h₂, hr, -⟩
  · rw [h₁, h₂]
    exact .ok rfl h
  · rw [h₁, h₂]
    refine ((readingAlong hA r r' hr).sequence .values).bind fun e r₁ h₁ r₁' h₁' he hr₁ => ?_
    exact (along_assigned r₁ r₁' hr₁).bind fun es r₂ h₂ r₂' h₂' hes hr₂ => .ok (hes.cons he) hr₂
termination_by ts.length

private theorem Commented.updateOp (h : Commented ok false ts ts') :
    updateOp? ts' = updateOp? ts := by
  have hat (o : BinOp) : Parser.at? (o.spelling ++ "=") ts' = Parser.at? (o.spelling ++ "=") ts :=
    (Commented.isAlong ok).is h _
  simp only [updateOp?, hat]

private theorem Commented.tail_of_updateOp {op : BinOp} (h : Commented ok false ts ts')
    (hop : updateOp? ts = some op) :
    ∃ t r r', ts = t :: r ∧ ts' = t :: r' ∧ Commented ok false r r' := by
  have hat : Parser.at? (op.spelling ++ "=") ts = true := by simpa using List.find?_some hop
  cases ts with
  | nil => simp [Parser.at?, peek, Token.is] at hat
  | cons t r =>
    obtain ⟨r', rfl, hr⟩ := (Commented.isAlong ok).tail h (isLayout_of_is hat)
    exact ⟨t, r, r', rfl, rfl, hr⟩

private theorem names_assign {p : Pos} {es : List Expr} {e : Expr} (hs : AllNamed ok es)
    (h : Named ok e) : (Stmt.assign p es e).walk.all (fun e => e.name?.all ok) = true := by
  rw [Stmt.walk, List.all_append, Expr.walkList_hasNames, Bool.and_eq_true]
  exact ⟨hs, h⟩

private theorem names_update {p : Pos} {op : BinOp} {e e' : Expr} (h : Named ok e)
    (h' : Named ok e') :
    (Stmt.update p e op e').walk.all (fun e => e.name?.all ok) = true := by
  rw [Stmt.walk, List.all_append, Bool.and_eq_true]
  exact ⟨h, h'⟩

private theorem names_wordStmt? {t : Token} {s : Stmt} (h : wordStmt? t = some s) :
    s.walk.all (fun e => e.name?.all ok) = true := by
  unfold wordStmt? at h
  split at h
  · split at h
    · obtain rfl := Option.some.inj h; rfl
    split at h
    · obtain rfl := Option.some.inj h; rfl
    split at h
    · obtain rfl := Option.some.inj h; rfl
    · exact absurd h nofun
  · exact absurd h nofun

private theorem allNamed_reverse {es : List Expr} : AllNamed ok es.reverse ↔ AllNamed ok es := by
  simp [AllNamed]

/-- No statement starts with a token of layout. -/
theorem simpleStmt_of_isLayout {t : Token} (h : t.kind.isLayout = true) :
    simpleStmt (t :: r) = invalid (t :: r) := by
  have hword : wordStmt? t = none := if_neg fun hk => by
    rw [hk] at h
    exact absurd h nofun
  rw [simpleStmt, hword]
  dsimp only
  have htest : test (t :: r) = invalid (t :: r) := test_of_isLayout h
  rw [sequence, item, htest]
  rfl

private theorem agrees_simpleStmt (h : Commented ok false ts ts') :
    Agrees (IsOwn ok) (Commented ok false) (simpleStmt ts) (simpleStmt ts') := by
  have hA := Commented.isAlong ok
  cases h with
  | nil =>
    rw [simpleStmt]
    exact .error
  | layout hl hk ht h =>
    rw [simpleStmt_of_isLayout hl]
    exact .error
  | @token _ t r r' hl hn h =>
    have hfirst := (readingAlong hA _ _ (.token hl hn h)).sequence .values
    rw [simpleStmt, simpleStmt]
    split
    · rename_i s hword
      exact .read ⟨rfl, names_wordStmt? hword⟩ h
    · refine hfirst.then fun first r₁ h₁ r₁' h₁' hfirst hr₁ => ?_
      refine (along_assigned r₁ r₁' hr₁).then fun others r₂ h₂ r₂' h₂' hothers hr₂ => ?_
      dsimp only
      split
      · rename_i value targets hrev
        have hall : AllNamed ok (value :: targets) := hrev ▸ allNamed_reverse.2 hothers
        simp only [AllNamed, List.all_cons, Bool.and_eq_true] at hall
        refine .read ⟨rfl, names_assign (AllNamed.cons hfirst ?_) hall.1⟩ hr₂
        exact allNamed_reverse.2 hall.2
      · rw [hr₁.updateOp]
        split
        · exact .read ⟨rfl, hfirst⟩ hr₁
        · rename_i op hop
          obtain ⟨t', r₃, r₃', rfl, rfl, hr₃⟩ := hr₁.tail_of_updateOp hop
          refine ((readingAlong hA r₃ r₃' hr₃).sequence .values).then
            fun value r₄ h₄ r₄' h₄' hvalue hr₄ => ?_
          exact .read ⟨rfl, names_update hfirst hvalue⟩ hr₄

private theorem agrees_simpleRest (ts ts' : List Token) (h : Commented ok false ts ts') :
    Agrees (IsRespelled ok) (Commented ok false) (simpleRest ts) (simpleRest ts') := by
  have hA := Commented.isAlong ok
  rw [simpleRest, simpleRest]
  rcases hA.eat h ";" with ⟨h₁, h₂⟩ | ⟨r, hlt, r', hlt', h₁, h₂, hr, -⟩
  · rw [h₁, h₂]
    exact .read isRespelled_nil h
  · rw [h₁, h₂]
    dsimp only
    rw [hA.peek_kind hr]
    split
    · exact .read isRespelled_nil hr
    · refine (agrees_simpleStmt hr).bind fun s r₁ h₁ s' r₁' h₁' hs hr₁ => ?_
      refine (agrees_simpleRest r₁ r₁' hr₁).bind fun ss r₂ h₂ ss' r₂' h₂' hss hr₂ => ?_
      exact .read (hs.respelled.append hss) hr₂
termination_by ts.length

private theorem agrees_simpleStmts (h : Commented ok false ts ts') :
    Agrees (IsRespelled ok) (Commented ok true) (simpleStmts ts) (simpleStmts ts') := by
  rw [simpleStmts, simpleStmts]
  refine (agrees_simpleStmt h).bind fun s r₁ h₁ s' r₁' h₁' hs hr₁ => ?_
  refine (agrees_simpleRest r₁ r₁' hr₁).bind fun ss r₂ h₂ ss' r₂' h₂' hss hr₂ => ?_
  dsimp only
  cases hr₂ with
  | nil => exact .error
  | @token _ t r r' hl hn hr =>
    have hk : t.kind ≠ .newline := fun hk => by rw [hk] at hl; cases hl
    simp only [hk, if_false]
    exact .error
  | @layout _ t t' r r' hl hk ht hr =>
    dsimp only
    rw [hk]
    split
    · exact .read (hs.respelled.append hss) hr
    · exact .error

/-! ## Blocks -/

/-- A comment line is read as a comment. -/
theorem reads_comment {c : List Token} (hc : IsCommentLine c) (hr : EndsStmt r) :
    ∃ a h, statement (c ++ r) = .ok ⟨a, r, h⟩ ∧ Block.bare a = [] := by
  obtain ⟨text, c, t, rfl, hspells, ht⟩ := hc
  obtain ⟨a, h, hread, ha⟩ :=
    (readsStmt_expr ((readsAt_comment hspells).mono (by decide) (Nat.le_refl 13)) ht).reads r hr
  refine ⟨a, h, hread, ?_⟩
  obtain ⟨s, rfl, hs⟩ := Stmt.unplacedBlock_eq_singleton ha
  have hcomment : s.isComment = true := by
    rw [← Stmt.isComment_unplaced, hs]
    rfl
  simp [Block.bare, Stmt.bareBlockBy, hcomment]

/-- What reading statements along tokens with comments gives. -/
structure StatementsAgree (ok : String → Bool) (ts ts' : List Token) : Prop where
  statements (inside : Bool) : Commented ok true ts ts' → Agrees (IsRespelled ok)
    (Commented ok false) (statements inside ts) (statements inside ts')
  statement : Commented ok false ts ts' →
    Agrees (IsRespelled ok) (Commented ok true) (statement ts) (statement ts')
  ifStmt (p : Pos) : Commented ok false ts ts' →
    Agrees (fun s s' => IsRespelled ok [s] [s']) (Commented ok true) (ifStmt p ts) (ifStmt p ts')
  elseBlock : Commented ok true ts ts' →
    Agrees (IsRespelled ok) (Commented ok true) (elseBlock ts) (elseBlock ts')
  block : Commented ok false ts ts' →
    Agrees (IsRespelled ok) (Commented ok true) (block ts) (block ts')

section Compound

variable (ih : ∀ r r', r'.length < ts'.length → StatementsAgree ok r r')

private theorem endsBlock_eq {t t' : Token} (hk : t'.kind = t.kind) (inside : Bool) :
    endsBlock inside t' = endsBlock inside t := by
  simp [endsBlock, hk]

include ih

private theorem agrees_statements (inside : Bool)
    (hst : Commented ok false ts ts' →
      Agrees (IsRespelled ok) (Commented ok true) (statement ts) (statement ts'))
    (h : Commented ok true ts ts') : Agrees (IsRespelled ok) (Commented ok false)
      (statements inside ts) (statements inside ts') := by
  -- Without a comment in front both lists end here, or a statement is read off both.
  have along {t t' : Token} {r r' : List Token} (hts : ts = t :: r) (hts' : ts' = t' :: r')
      (hk : t'.kind = t.kind) (h : Commented ok false ts ts') : Agrees (IsRespelled ok)
        (Commented ok false) (statements inside ts) (statements inside ts') := by
    have hst := hst h
    subst hts hts'
    rw [statements, statements, endsBlock_eq hk]
    split
    · exact .read isRespelled_nil h
    · refine hst.bind fun ss r₁ h₁ ss' r₁' h₁' hss hr₁ => ?_
      exact ((ih r₁ r₁' h₁').statements inside hr₁).bind fun b r₂ h₂ b' r₂' h₂' hb hr₂ =>
        .read (hss.append hb) hr₂
  cases h with
  | nil =>
    rw [statements]
    exact .read isRespelled_nil .nil
  | token hl hn h => exact along rfl rfl rfl (.token hl hn h)
  | layout hl hk ht h => exact along rfl rfl hk (.layout hl hk ht h)
  | @comment c _ r' hc hr h =>
    obtain ⟨a, ha, hread, hbare⟩ := reads_comment hc (h.endsStmt hr.2)
    obtain ⟨t, c', rfl, hk, -⟩ := hc.eq_cons
    have hlt : r'.length < (t :: c' ++ r').length := by
      simp only [List.length_append, List.length_cons]
      omega
    intro v r₀ h₀ hv
    obtain ⟨v', r₁, h₁, hv', hsame, hr₁⟩ := (ih ts r' hlt).statements inside h v r₀ h₀ hv
    have hno : endsBlock inside t = false := by simp [endsBlock, hk]
    refine ⟨a ++ v', r₁, by omega, ?_, ⟨?_, hsame.names⟩, hr₁⟩
    · have hread : statement (t :: (c' ++ r')) = .ok ⟨a, r', ha⟩ := hread
      show statements inside (t :: (c' ++ r')) = _
      rw [statements]
      simp only [hno, Bool.false_eq_true, if_false, hread, hv', bind, Except.bind, pure,
        Except.pure]
    · rw [Block.bare_append, hbare, hsame.bare]
      rfl

private theorem agrees_block (h : Commented ok false ts ts') :
    Agrees (IsRespelled ok) (Commented ok true) (block ts) (block ts') := by
  have hsimple := agrees_simpleStmts h
  cases h with
  | nil =>
    rw [block.eq_def]
    exact .error
  | @token _ t r r' hl hn h =>
    have hk : t.kind ≠ .newline := fun hk => by rw [hk] at hl; cases hl
    rw [block.eq_def, block.eq_def]
    simp only [hk, if_false]
    exact hsimple
  | @layout _ t t' r r' hl hk ht h =>
    rw [block.eq_def, block.eq_def]
    dsimp only
    rw [hk]
    split
    · cases r with
      | nil => exact .error
      | cons t₁ r₁ =>
        dsimp only
        split
        · rename_i hindent
          have hnot : ¬AdmitsComment (t₁ :: r₁) := fun hr => hr.1 hindent
          cases h.along hnot with
          | token hl' hn h => rw [hindent] at hl'; cases hl'
          | @layout _ _ t₁' _ r₁' hl' hk' ht' h₁ =>
            have hlt : r₁'.length < (t' :: t₁' :: r₁').length := by
              simp only [List.length_cons]
              omega
            dsimp only
            rw [if_pos (hk'.trans hindent)]
            refine ((ih r₁ r₁' hlt).statements true h₁).bind
              fun body r₂ h₂ body' r₂' h₂' hbody hr₂ => ?_
            exact .read hbody hr₂.closeBlock
        · exact .error
    · exact hsimple

private theorem agrees_elseBlock (h : Commented ok true ts ts') :
    Agrees (IsRespelled ok) (Commented ok true) (elseBlock ts) (elseBlock ts') := by
  rw [elseBlock, elseBlock]
  rcases h.eat (.inr rfl) with ⟨h₁, h₂⟩ | ⟨r, hlt, r', hlt', h₁, h₂, hr, -⟩
  · rw [h₁, h₂]
    exact .read isRespelled_nil h
  · rw [h₁, h₂]
    refine hr.expect ":" fun r₁ h₁ r₁' h₁' hr₁ => ?_
    exact ((ih r₁ r₁' (Nat.lt_trans h₁' hlt')).block hr₁).bind
      fun body r₂ h₂ body' r₂' h₂' hbody hr₂ => .read hbody hr₂

private theorem agrees_ifStmt (p : Pos) (h : Commented ok false ts ts') :
    Agrees (fun s s' => IsRespelled ok [s] [s']) (Commented ok true) (ifStmt p ts)
      (ifStmt p ts') := by
  rw [ifStmt, ifStmt]
  refine (readingAlong (Commented.isAlong ok) _ _ h).test.then fun cond r₁ h₁ r₁' h₁' hc hr₁ => ?_
  refine hr₁.expect ":" fun r₂ h₂ r₂' h₂' hr₂ => ?_
  have hlt : r₂'.length < ts'.length := Nat.lt_trans h₂' h₁'
  refine ((ih r₂ r₂' hlt).block hr₂).bind fun body r₃ h₃ body' r₃' h₃' hbody hr₃ => ?_
  have hlt : r₃'.length < ts'.length := Nat.lt_trans h₃' hlt
  dsimp only
  rcases hr₃.eat (.inl rfl) with ⟨h₁, h₂⟩ | ⟨r₄, h₄, r₄', h₄', h₁, h₂, hr₄, hpeek⟩
  · rw [h₁, h₂]
    exact ((ih r₃ r₃' hlt).elseBlock hr₃).bind fun orelse r₄ h₄ orelse' r₄' h₄' ho hr₄ =>
      .read (isRespelled_ifElse hc hbody ho) hr₄
  · rw [h₁, h₂]
    dsimp only
    rw [hpeek]
    exact ((ih r₄ r₄' (Nat.lt_trans h₄' hlt)).ifStmt _ hr₄).bind
      fun s r₅ h₅ s' r₅' h₅' hs hr₅ => .read (isRespelled_ifElse hc hbody hs) hr₅

private theorem agrees_statement (h : Commented ok false ts ts') :
    Agrees (IsRespelled ok) (Commented ok true) (statement ts) (statement ts') := by
  have hA := Commented.isAlong ok
  have hsimple := agrees_simpleStmts h
  cases h with
  | nil =>
    rw [statement]
    exact .error
  | @layout _ t t' r r' hl hk ht h =>
    have hname : t.kind ≠ .name := fun hn => by rw [hn] at hl; cases hl
    rw [statement, statement, hk]
    split
    · exact .error
    simp only [hname, false_and, if_false]
    exact hsimple
  | @token _ t r r' hl hn h =>
    have hlt := length_lt_cons t r'
    rw [statement, statement]
    split
    · exact .error
    split
    · exact ((ih r r' hlt).ifStmt _ h).bind fun s r₁ h₁ s' r₁' h₁' hs hr₁ => .read hs hr₁
    split
    · refine ((readingAlong hA r r' h).sequence .targets).then fun target r₁ h₁ r₁' h₁' ht hr₁ => ?_
      refine hr₁.expect "in" fun r₂ h₂ r₂' h₂' hr₂ => ?_
      refine ((readingAlong hA r₂ r₂' hr₂).sequence .values).then
        fun iter r₃ h₃ r₃' h₃' hi hr₃ => ?_
      refine hr₃.expect ":" fun r₄ h₄ r₄' h₄' hr₄ => ?_
      have hlt : r₄'.length < (t :: r').length :=
        Nat.lt_trans h₄' (Nat.lt_trans h₃' (Nat.lt_trans h₂' (lt_length_cons t h₁')))
      refine ((ih r₄ r₄' hlt).block hr₄).bind fun body r₅ h₅ body' r₅' h₅' hbody hr₅ => ?_
      exact ((ih r₅ r₅' (Nat.lt_trans h₅' hlt)).elseBlock hr₅).bind
        fun orelse r₆ h₆ orelse' r₆' h₆' ho hr₆ => .read (isRespelled_forEach ht hi hbody ho) hr₆
    split
    · refine (readingAlong hA r r' h).test.then fun cond r₁ h₁ r₁' h₁' hc hr₁ => ?_
      refine hr₁.expect ":" fun r₂ h₂ r₂' h₂' hr₂ => ?_
      have hlt : r₂'.length < (t :: r').length := Nat.lt_trans h₂' (lt_length_cons t h₁')
      refine ((ih r₂ r₂' hlt).block hr₂).bind fun body r₃ h₃ body' r₃' h₃' hbody hr₃ => ?_
      exact ((ih r₃ r₃' (Nat.lt_trans h₃' hlt)).elseBlock hr₃).bind
        fun orelse r₄ h₄ orelse' r₄' h₄' ho hr₄ => .read (isRespelled_whileDo hc hbody ho) hr₄
    · exact hsimple

end Compound

/-- Reading goes on with fewer tokens, or on the same ones with a reader of parts. -/
theorem statementsAgree (ts ts' : List Token) : StatementsAgree ok ts ts' := by
  induction hn : ts'.length using Nat.strongRecOn generalizing ts ts' with
  | _ n ih =>
    have ih (r r' : List Token) (hr : r'.length < ts'.length) : StatementsAgree ok r r' :=
      ih r'.length (hn ▸ hr) r r' rfl
    exact {
      statements := fun inside => agrees_statements ih inside (agrees_statement ih)
      statement := agrees_statement ih
      ifStmt := agrees_ifStmt ih
      elseBlock := agrees_elseBlock ih
      block := agrees_block ih }

/-- Tokens with comments between the statements write the same block, but for the comments. -/
theorem ofTokens_commented {b : Block} (h : Commented ok true ts ts') (hb : ofTokens ts = .ok b) :
    ∃ b', ofTokens ts' = .ok b' ∧ IsRespelled ok b b' := by
  obtain ⟨⟨v, r, hr⟩, hv, hb⟩ := ok_of_bind hb
  obtain ⟨v', r', hr', hv', hsame, -⟩ := (statementsAgree ts ts').statements false h _ _ _ hv
  cases hb
  refine ⟨v', ?_, hsame⟩
  rw [ofTokens, hv']
  rfl

end Parser
end ValidUsage
