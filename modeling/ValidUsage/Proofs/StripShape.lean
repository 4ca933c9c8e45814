import ValidUsage.Proofs.FalseRequirements
import ValidUsage.Proofs.Spelled

/-!
# Stripped statements can be written

A tree that is read from a text has a shape: its names are identifiers, what is joined or compared
has enough operands, a slice is the index of an element and nothing else, and no block is empty.
Folding replaces and leaves out parts of a tree, and taking dead code away leaves out statements,
but neither makes a tree that has not this shape.

Comments stay as they are. But a call that folding makes of another call may be a comment where it
was none before, and then have a text over several lines.
-/

namespace ValidUsage

/-! ## Expressions -/

namespace Expr

/-- The parts of an expression where a value stands: all but the index of an element. -/
def valueParts : Expr → List Expr
  | subscript _ value _ => [value]
  | e => e.children

/-- Whether the names of an expression are identifiers, and as many expressions are joined or
compared as there are operators for, the parts of the expression aside. -/
def isProper : Expr → Bool
  | boolOp _ _ values => 2 ≤ values.length
  | compare _ _ ops comparators => !ops.isEmpty && ops.length == comparators.length
  | member _ _ attr => isIdentifier attr
  | name _ id => isIdentifier id
  | _ => true

/-- Whether an expression has the shape of one that is read, and is no slice. -/
def isShaped (e : Expr) : Bool :=
  !e.isSlice && e.walk.all fun x => x.isProper && x.valueParts.all (!·.isSlice)

/-- Whether an expression is a text over several lines. -/
def breaksLine : Expr → Bool
  | const _ (.str text) => text.toList.contains '\n'
  | _ => false

variable {b : Build} {names : FoldedNames} {e : Expr}

/-- Whether slices stand in an expression as indices only; it may be one itself. -/
def SlicesIndex (e : Expr) : Prop := ∀ x ∈ e.walk, ∀ c ∈ x.valueParts, c.isSlice = false

private theorem isShaped_iff : e.isShaped = true ↔
    e.isSlice = false ∧ (∀ x ∈ e.walk, x.isProper = true) ∧ e.SlicesIndex := by
  simp [isShaped, SlicesIndex, forall_and]

private theorem slicesIndex_iff : e.SlicesIndex ↔
    (∀ c ∈ e.valueParts, c.isSlice = false) ∧ ∀ c ∈ e.children, c.SlicesIndex := by
  simp only [SlicesIndex, walk_eq e, List.forall_mem_cons, mem_walkList]
  grind

/-- Whether an expression is a value: it is no slice, and slices in it stand as indices only. -/
def IsValue (e : Expr) : Prop := e.isSlice = false ∧ e.SlicesIndex

/-- A value whose parts are all such that a value stands there has values for parts. -/
theorem isValue_iff (hs : e.isSlice = false) (hc : e.valueParts = e.children) :
    e.IsValue ↔ ∀ c ∈ e.children, c.IsValue := by
  rw [IsValue, slicesIndex_iff, hc]
  simp only [hs, true_and, IsValue, ← forall_and]

private theorem isValue_subscript {p : Pos} {value index : Expr} :
    (subscript p value index).IsValue ↔ value.IsValue ∧ index.SlicesIndex := by
  rw [IsValue, slicesIndex_iff]
  simp [isSlice, valueParts, children, IsValue, and_assoc]

private theorem isValue_ofBool (p : Pos) (v : Bool) : (ofBool p v).IsValue :=
  (isValue_iff rfl rfl).2 (by simp [ofBool, children])

private theorem isValue_name (p : Pos) (id : String) : (name p id).IsValue :=
  (isValue_iff rfl rfl).2 (by simp [children])

private theorem isValue_foldName (names : FoldedNames) (p : Pos) (id : String) :
    (foldName names p id).IsValue := by
  rcases foldName_cases names p id with ⟨v, hv⟩ | hv
  · exact hv ▸ isValue_ofBool p v
  · exact hv ▸ isValue_name p id

private theorem isValue_negated (h : e.IsValue) : e.negated.IsValue := by
  unfold negated
  split
  · exact (isValue_iff rfl rfl).1 h _ (by simp [children])
  · exact (isValue_iff rfl rfl).2 (by simpa [children] using h)

private theorem isValue_foldNot {p : Pos} {operand : Expr} (h : operand.IsValue) :
    (foldNot p operand).IsValue := by
  unfold foldNot
  split
  · exact isValue_ofBool p _
  split
  · exact (isValue_iff rfl rfl).1 h _ (by simp [children])
  · exact (isValue_iff rfl rfl).2 (by simpa [children] using h)

private theorem isValue_foldBoolOp {p : Pos} {op : BoolOp} {values : List Expr}
    (h : ∀ v ∈ values, v.IsValue) : (foldBoolOp p op values).IsValue := by
  rcases foldBoolOp_cases p op values with ⟨v, hv⟩ | hv | ⟨live, hlive, -, hv⟩
  · exact hv ▸ isValue_ofBool p v
  · exact h _ hv
  · rw [hv]
    exact (isValue_iff rfl rfl).2 fun c hc => h c (hlive hc)

private theorem isValue_foldCompare {p : Pos} {left : Expr} {ops : List CmpOp}
    {comparators : List Expr}
    (hl : left.IsValue) (hc : ∀ c ∈ comparators, c.IsValue) :
    (foldCompare p left ops comparators).IsValue := by
  rcases foldCompare_eq p left ops comparators with ⟨-, v, hv⟩ | ⟨-, hv⟩
  · exact hv ▸ isValue_ofBool p v
  · rw [hv]
    exact (isValue_iff rfl rfl).2 (List.forall_mem_cons.2 ⟨hl, hc⟩)

/-- What folding makes of a value is a value. -/
theorem isValue_fold (b : Build) (names : FoldedNames) (e : Expr) (h : e.IsValue) :
    (e.fold b names).IsValue := by
  have list {es : List Expr} (ih : ∀ e ∈ es, e.IsValue → (e.fold b names).IsValue)
      (h : ∀ e ∈ es, e.IsValue) : ∀ e ∈ foldList b names es, e.IsValue := by
    rw [foldList_eq_map]
    exact List.forall_mem_map.2 fun e he => ih e he (h e he)
  induction e using partsInduction with
  | boolOp p op values ih =>
    rw [fold]
    exact isValue_foldBoolOp (list ih ((isValue_iff rfl rfl).1 h))
  | unary p op operand ih =>
    have hoperand := ih ((isValue_iff rfl rfl).1 h _ (List.mem_singleton_self _))
    rw [fold]
    split
    · exact isValue_foldNot hoperand
    · exact (isValue_iff rfl rfl).2 (by simpa [children] using hoperand)
  | compare p left ops comparators ihl ihc =>
    obtain ⟨hl, hc⟩ := List.forall_mem_cons.1 ((isValue_iff rfl rfl).1 h)
    rw [fold]
    split
    · exact isValue_ofBool p _
    · exact isValue_foldCompare (ihl hl) (list ihc hc)
  | call p func args ihf iha =>
    obtain ⟨hf, ha⟩ := List.forall_mem_cons.1 ((isValue_iff rfl rfl).1 h)
    rw [fold]
    split
    · unfold foldAlias
      split
      · exact (isValue_iff rfl rfl).2 (by simp [children, isValue_foldName])
      · exact isValue_ofBool p false
    split
    · exact isValue_ofBool p _
    · exact (isValue_iff rfl rfl).2 (List.forall_mem_cons.2 ⟨ihf hf, list iha ha⟩)
  | ifExp p test body orelse iht ihb iho =>
    obtain ⟨ht, hb, ho⟩ : test.IsValue ∧ body.IsValue ∧ orelse.IsValue := by
      simpa [children] using (isValue_iff rfl rfl).1 h
    rw [fold]
    split
    · exact ihb hb
    · exact iho ho
    · exact (isValue_iff rfl rfl).2 (by simp [children, iht ht, ihb hb, iho ho])
  | binary p left op right ihl ihr =>
    obtain ⟨hl, hr⟩ : left.IsValue ∧ right.IsValue := by
      simpa [children] using (isValue_iff rfl rfl).1 h
    rw [fold]
    exact (isValue_iff rfl rfl).2 (by simp [children, ihl hl, ihr hr])
  | member p value attr ih =>
    have hvalue := ih ((isValue_iff rfl rfl).1 h _ (List.mem_singleton_self _))
    rw [fold]
    exact (isValue_iff rfl rfl).2 (by simpa [children] using hvalue)
  | subscript p value index ihv ihi =>
    obtain ⟨hv, hi⟩ := isValue_subscript.1 h
    rw [fold]
    refine isValue_subscript.2 ⟨ihv hv, ?_⟩
    -- an index that is a slice is left alone
    cases hs : index.isSlice with
    | true =>
      cases index with
      | slice => exact hi
      | _ => cases hs
    | false => exact (ihi ⟨hs, hi⟩).2
  | name p id => exact isValue_foldName names p id
  | const | tuple | list => exact h
  | slice => exact absurd h.1 (by simp [isSlice])

/-- The names and the numbers of operands are those of expressions that are read, after folding. -/
theorem foldsNodes_isProper
    (h : ∀ feature ext, b.config.legacyAlias? feature = some ext → isIdentifier ext = true) :
    FoldsNodes b fun x => x.isProper = true where
  literal _ _ := rfl
  asked _ := show isIdentifier Predicate.isExtEnabled.name = true by decide
  extension _ feature ext ha := h feature ext ha
  boolOp _ _ _ hlen := decide_eq_true hlen
  unary _ _ _ := rfl
  call _ _ _ := rfl
  subscript _ _ _ := rfl
  ifExp _ _ _ _ := rfl
  binary _ _ _ := rfl
  compare _ _ hlen hc := by simpa [isProper, hlen] using hc
  member _ hm := hm

private theorem isShaped_fold (e : Expr)
    (h : ∀ feature ext, b.config.legacyAlias? feature = some ext → isIdentifier ext = true)
    (he : e.isShaped = true) : (e.fold b names).isShaped = true := by
  obtain ⟨hs, hp, hi⟩ := isShaped_iff.1 he
  obtain ⟨hs', hi'⟩ := isValue_fold b names e ⟨hs, hi⟩
  exact isShaped_iff.2 ⟨hs', (foldsNodes_isProper h).forall_mem_walk_fold hp, hi'⟩

private theorem isShaped_negated (he : e.isShaped = true) : e.negated.isShaped = true := by
  obtain ⟨hs, hp, hi⟩ := isShaped_iff.1 he
  obtain ⟨hs', hi'⟩ := isValue_negated ⟨hs, hi⟩
  refine isShaped_iff.2 ⟨hs', ?_, hi'⟩
  unfold negated
  split
  · exact fun x hx => hp x (List.mem_cons_of_mem _ hx)
  · exact List.forall_mem_cons.2 ⟨rfl, hp⟩

/-! ## Comments -/

/-- What a folded expression calls by name was named in it, if it is not the condition on an
extension. -/
theorem exists_name_of_callName?_fold {e : Expr} {id : String}
    (hid : Predicate.isExtEnabled.name ≠ id)
    (h : (e.fold b names).unnegated.callName? = some id) : ∃ x ∈ e.walk, x.name? = some id := by
  have hhead := headOf_fold b names e
  generalize hy : (e.fold b names).unnegated = y at hhead h
  cases hhead with
  | literal | name => cases h
  | part q hq =>
    have := sizeOf_lt_of_mem_parts hq
    obtain ⟨x, hx, hname⟩ := exists_name_of_callName?_fold hid h
    exact ⟨x, walk_subset_of_mem_parts hq hx, hname⟩
  | call p func args he =>
    have hfunc : (func.fold b names).unnegated.name? = some id := by
      rw [callName?] at h
      cases hf : func.fold b names with
      | name => rwa [hf] at h
      | _ => simp [hf, name?] at h
    obtain ⟨x, hx, hname⟩ := name?_unnegated_fold hfunc
    refine ⟨x, ?_, hname⟩
    rw [he, walk]
    exact List.mem_cons_of_mem _ (List.mem_append_left _ hx)
  | asked _ _ hc => exact absurd (Option.some.inj (hc.symm.trans h)) hid
  | other _ _ hc => exact absurd (hc.symm.trans h) (by simp)
termination_by sizeOf e

/-- Folding makes no texts. -/
theorem foldsNodes_not_breaksLine (b : Build) : FoldsNodes b fun x => x.breaksLine = false where
  literal _ _ := rfl
  asked _ := rfl
  extension _ _ _ _ := rfl
  boolOp _ _ _ _ := rfl
  unary _ _ _ := rfl
  call _ _ _ := rfl
  subscript _ _ _ := rfl
  ifExp _ _ _ _ := rfl
  binary _ _ _ := rfl
  compare _ _ _ _ := rfl
  member _ _ := rfl

end Expr

/-! ## Statements -/

namespace Stmt

/-- Whether a statement, the statements of its blocks aside, has the shape of one that is read:
there is something in its first block, and what it binds can be bound. -/
def isShaped : Stmt → Bool
  | assign _ targets value => !targets.isEmpty && targets.all Expr.isShaped && value.isShaped
  | update _ target _ value => target.isShaped && value.isShaped
  | ifElse _ test body _ | whileDo _ test body _ => test.isShaped && !body.isEmpty
  | forEach _ target iter body _ =>
    target.isShaped && target.isLoopTarget && iter.isShaped && !body.isEmpty
  | expr _ value => value.isShaped
  | pass _ | breakOut _ | nextRound _ => true

/-- Whether a statement is no comment, or one whose text stands on one line. -/
def isOnLine (s : Stmt) : Bool := s.comment?.all fun text => !text.toList.contains '\n'

/-- Whether no comment over several lines can come of a statement: it is a comment, or does not name
what comments call, or has no text over several lines. -/
def keepsComments : Stmt → Bool
  | expr p value => (expr p value).isComment || value.walk.all (·.name? != some commentName) ||
    value.walk.all fun x => !x.breaksLine
  | _ => true

variable {build : Build}

private theorem ignoresBlocks_isShaped : IgnoresBlocks fun s => s.isShaped = true where
  branches body' _ hne hs := by
    simp only [isShaped, Bool.and_eq_true] at hs ⊢
    exact ⟨hs.1, by simpa using hne⟩
  rounds body' hne hs := by
    simp only [isShaped, Bool.and_eq_true] at hs ⊢
    exact ⟨hs.1, by simpa using hne⟩
  negated hs := by
    simp only [isShaped, Bool.and_eq_true] at hs ⊢
    exact ⟨Expr.isShaped_negated hs.1, hs.2⟩

/-- Folding keeps the shape of statements. -/
theorem foldsStmts_isShaped
    (h : ∀ feature ext, build.config.legacyAlias? feature = some ext → isIdentifier ext = true) :
    FoldsStmts build (fun s => s.isShaped = true) fun s => s.isShaped = true where
  toIgnoresBlocks := ignoresBlocks_isShaped
  outside _ _ _ _ hx := hx
  assign names hs := by
    simp only [isShaped, Bool.and_eq_true] at hs ⊢
    exact ⟨hs.1, Expr.isShaped_fold _ h hs.2⟩
  ifElse names hs := by
    simp only [isShaped, Bool.and_eq_true] at hs ⊢
    exact ⟨Expr.isShaped_fold _ h hs.1, hs.2⟩
  forEach names hs := by
    simp only [isShaped, Bool.and_eq_true] at hs ⊢
    exact ⟨⟨hs.1.1, Expr.isShaped_fold _ h hs.1.2⟩, hs.2⟩
  comment _ hs := hs
  expr names _ _ hs := Expr.isShaped_fold _ h hs
  pass _ := rfl

/-- What folding makes of a statement from which no comment over several lines can come is none. -/
theorem isOnLine_fold {p : Pos} {value : Expr} (names : FoldedNames)
    (hc : (expr p value).isComment = false) (h : (expr p value).keepsComments = true) :
    (expr p (value.fold build names)).isOnLine = true := by
  rw [isOnLine]
  cases htext : (expr p (value.fold build names)).comment? with
  | none => rfl
  | some text =>
    obtain ⟨q, q', q'', he⟩ := eq_call_of_comment? htext
    simp only [keepsComments, hc, Bool.false_or, Bool.or_eq_true, List.all_eq_true] at h
    rcases h with hname | hlines
    · have hcall : (value.fold build names).unnegated.callName? = some commentName := by
        rw [he]
        rfl
      obtain ⟨x, hx, hcomment⟩ := Expr.exists_name_of_callName?_fold (by decide) hcall
      exact absurd hcomment (by simpa using hname x hx)
    · have hfold : ∀ x ∈ (value.fold build names).walk, x.breaksLine = false :=
        (Expr.foldsNodes_not_breaksLine build).forall_mem_walk_fold (by simpa using hlines)
      have htext := hfold (.const q'' (.str text)) (by rw [he]; simp [Expr.walk, Expr.walkList])
      simpa [Expr.breaksLine] using htext

private theorem ignoresBlocks_isOnLine : IgnoresBlocks fun s => s.isOnLine = true where
  branches _ _ _ _ := rfl
  rounds _ _ _ := rfl
  negated _ := rfl

/-- Folding keeps comments as they are, if none comes of another statement. -/
theorem foldsStmts_isOnLine :
    FoldsStmts build (fun s => s.isOnLine = true ∧ s.keepsComments = true)
      fun s => s.isOnLine = true where
  toIgnoresBlocks := ignoresBlocks_isOnLine
  outside _ _ _ _ hx := hx.1
  assign _ _ := rfl
  ifElse _ _ := rfl
  forEach _ _ := rfl
  comment _ hs := hs.1
  expr names hc _ hs := isOnLine_fold names hc hs.2
  pass _ := rfl

end Stmt

namespace Block

/-- Whether the statements of a block have the shape of statements that are read. -/
def isShaped (b : Block) : Bool := b.statements.all Stmt.isShaped

/-- Whether the comments of a block stand on a line each. -/
def isOnLines (b : Block) : Bool := b.statements.all Stmt.isOnLine

/-- Whether no comment over several lines can come of the statements of a block. -/
def keepsComments (b : Block) : Bool := b.statements.all Stmt.keepsComments

private theorem ne_nil_of_withoutDeadCode {b c : Block} (h : b.withoutDeadCode = some c) :
    c ≠ [] := by
  induction b using withoutDeadCode.induct with
  | case1 b changed hprune =>
    rw [withoutDeadCode, hprune] at h
    cases h
  | case2 b left hprune =>
    rw [withoutDeadCode, hprune] at h
    obtain rfl := Option.some.inj h
    rintro rfl
    cases (prune_eq_some hprune).2
  | case3 b left hprune ih =>
    rw [withoutDeadCode, hprune] at h
    exact ih h

/-- What is left of a block has the shape of blocks that are read, and is not empty. Its comments
stand on lines, after stripping if no comment comes of another statement. -/
theorem isShaped_strip {b : Block} (hb : b.isShaped = true) (hl : b.isOnLines = true) :
    (∀ build : Build,
      (∀ feature ext, build.config.legacyAlias? feature = some ext → isIdentifier ext = true) →
        ∀ c, (b.strip build).block = some c →
          c ≠ [] ∧ c.isShaped = true ∧ (b.keepsComments = true → c.isOnLines = true)) ∧
      ∀ c, b.withoutDeadCode = some c → c ≠ [] ∧ c.isShaped = true ∧ c.isOnLines = true := by
  simp only [isShaped, isOnLines, keepsComments, List.all_eq_true] at hb hl ⊢
  constructor
  · intro build halias c hc
    refine ⟨ne_nil_of_withoutDeadCode hc, ?_, fun hk => ?_⟩
    · exact forall_mem_statements_strip (Stmt.foldsStmts_isShaped halias) hb hc
    · exact forall_mem_statements_strip Stmt.foldsStmts_isOnLine
        (fun s hs => ⟨hl s hs, hk s hs⟩) hc
  · intro c hc
    refine ⟨ne_nil_of_withoutDeadCode hc, ?_, ?_⟩
    · exact forall_mem_statements_withoutDeadCode Stmt.ignoresBlocks_isShaped hb hc
    · exact forall_mem_statements_withoutDeadCode Stmt.ignoresBlocks_isOnLine hl hc

/-- A condition on the first version. -/
private def isVersionOne : Expr :=
  .call .none (.name .none "is_version") [.const .none (.int 1), .const .none (.int 0)]

/-- A requirement of an element, by its index, or of the elements behind it. -/
private def requireElement (index : Expr) : Stmt :=
  .expr .none (.call .none (.name .none "require")
    [.subscript .none (.name .none "x") index])

/-- A requirement for the first version, and another one for any other. -/
private def requireForVersion : Block :=
  [.ifElse .none (.unary .none .not isVersionOne)
    [.ifElse .none (.name .none "y") [requireElement (.const .none (.int 1))] []]
    [.ifElse .none (.name .none "y") [.pass .none]
      [requireElement (.slice .none (some (.const .none (.int 1))) none none)]]]

/-- What the build leaves of them: an `if` of one branch. -/
private def requireOpposite : Block :=
  [.ifElse .none (.unary .none .not (.name .none "y"))
    [requireElement (.slice .none (some (.const .none (.int 1))) none none)] []]

private theorem legacyAlias?_firstBuild {feature ext : String} :
    firstBuild.config.legacyAlias? feature ≠ some ext := by
  rintro ⟨⟩

/-- Of the branch that is left the block without statements goes, and the slice stays. -/
theorem isShaped_strip_requireForVersion : requireForVersion.isShaped = true ∧
    requireForVersion.isOnLines = true ∧ ∃ c, (requireForVersion.strip firstBuild).block = some c ∧
      c ≠ [] ∧ c.isShaped = true ∧ c.isOnLines = true := by
  have hshaped : requireForVersion.isShaped = true := by decide
  have hlines : requireForVersion.isOnLines = true := by decide
  have hprune : (requireForVersion.fold firstBuild).stmts.prune = ⟨some requireOpposite, true⟩ :=
    rfl
  have hleft : (requireForVersion.strip firstBuild).block = some requireOpposite := by
    rw [strip]
    simp only
    rw [withoutDeadCode, hprune]
    exact withoutDeadCode_of_prune rfl
  obtain ⟨hne, hc, hkeep⟩ := (isShaped_strip hshaped hlines).1 firstBuild
    (fun _ _ h => absurd h legacyAlias?_firstBuild) _ hleft
  exact ⟨hshaped, hlines, _, hleft, hne, hc, hkeep (by decide)⟩

/-- A call with one of two texts, by the version. -/
private def chooseComment : Block :=
  [.expr .none (.call .none (.name .none commentName)
      [.ifExp .none isVersionOne (.const .none (.str "a\nb")) (.const .none (.str "c"))]),
    requireElement (.const .none (.int 1))]

/-- A call of what comments call becomes a comment over two lines. -/
theorem isOnLines_strip_chooseComment : chooseComment.isShaped = true ∧
    chooseComment.isOnLines = true ∧
    (∀ feature ext, firstBuild.config.legacyAlias? feature = some ext → isIdentifier ext = true) ∧
    ∃ c, (chooseComment.strip firstBuild).block = some c ∧ c.isOnLines = false := by
  refine ⟨by decide, by decide, fun _ _ h => absurd h legacyAlias?_firstBuild, ?_⟩
  exact ⟨_, withoutDeadCode_of_prune rfl, by decide⟩

end Block
end ValidUsage
