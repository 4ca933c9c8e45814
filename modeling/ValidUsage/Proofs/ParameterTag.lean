import ValidUsage.Proofs.WellScoped
import ValidUsage.Vu.Tag

/-!
# What a parameter tag names

An accepted statement names its own locals, the parameters of the subject and the names of the API.
The search for the tag passes over the first, since it knows all that the statement has bound so far
and no local has the name of a parameter or of the API. So the tag is the first name of the other
two kinds that does not start as the constants of the API do, outside of the blocks behind `else`,
which the search leaves out.
-/

namespace ValidUsage

namespace Expr

mutual

/-- The names that stand for values in an expression, in order. What is called stands for none, and
the arguments of a predicate are left out unless they can be parameters. -/
def valueNames : Expr → List String
  | boolOp _ _ values => valueNamesList values
  | binary _ left _ right => valueNames left ++ valueNames right
  | unary _ _ operand => valueNames operand
  | compare _ left _ comparators => valueNames left ++ valueNamesList comparators
  | call _ (name _ id) args =>
    if id = Predicate.require.name ∨ id = Predicate.externallySynchronized.name then
      valueNamesList args
    else []
  | call _ (member _ receiver _) _ => valueNames receiver
  | call _ func args => valueNames func ++ valueNamesList args
  | member _ value _ => valueNames value
  | subscript _ value index => valueNames value ++ valueNames index
  | ifExp _ test body orelse => valueNames test ++ (valueNames body ++ valueNames orelse)
  | name _ id => [id]
  | const _ _ => []
  | tuple _ elts | list _ elts => valueNamesList elts
  | slice _ lower upper step =>
    valueNamesOption lower ++ (valueNamesOption upper ++ valueNamesOption step)

/-- The names that stand for values in the expressions of a list. -/
def valueNamesList : List Expr → List String
  | [] => []
  | e :: es => valueNames e ++ valueNamesList es

/-- The names that stand for values in a bound of a slice. -/
def valueNamesOption : Option Expr → List String
  | none => []
  | some e => valueNames e

end

end Expr

namespace Stmt

mutual

/-- The names that stand for values in a statement or are bound there, in order, with or without
those of the blocks behind `else`. -/
def valueNames (behindElse : Bool) : Stmt → List String
  | assign _ targets value => Expr.valueNamesList targets ++ value.valueNames
  | update _ target _ value => target.valueNames ++ value.valueNames
  | ifElse _ test body orelse | whileDo _ test body orelse =>
    test.valueNames ++ (valueNamesBlock behindElse body ++
      if behindElse then valueNamesBlock behindElse orelse else [])
  | forEach _ target iter body orelse =>
    target.valueNames ++ (iter.valueNames ++ (valueNamesBlock behindElse body ++
      if behindElse then valueNamesBlock behindElse orelse else []))
  | expr _ value => value.valueNames
  | pass _ | breakOut _ | nextRound _ => []

/-- The names in the statements of a block. -/
def valueNamesBlock (behindElse : Bool) : Block → List String
  | [] => []
  | s :: ss => valueNames behindElse s ++ valueNamesBlock behindElse ss

end

variable {b : Block} {id : String}

private theorem mem_valueNamesBlock {behindElse : Bool} :
    id ∈ valueNamesBlock behindElse b ↔ ∃ s ∈ b, id ∈ s.valueNames behindElse := by
  induction b with
  | nil => simp [valueNamesBlock]
  | cons s ss ih => simp [valueNamesBlock, ih]

private theorem mem_valueNamesBlock_of
    (h : ∀ s ∈ b, id ∈ s.valueNames false → id ∈ s.valueNames true)
    (hid : id ∈ valueNamesBlock false b) : id ∈ valueNamesBlock true b := by
  obtain ⟨s, hs, hid⟩ := mem_valueNamesBlock.1 hid
  exact mem_valueNamesBlock.2 ⟨s, hs, h s hs hid⟩

/-- What is named outside of the blocks behind `else` is named. -/
theorem mem_valueNames_of (s : Stmt) (hid : id ∈ s.valueNames false) : id ∈ s.valueNames true := by
  induction s using Stmt.partsInduction with
  | ifElse p test body orelse ihb _ | whileDo p test body orelse ihb _ =>
    simp only [valueNames, Bool.false_eq_true, if_false, if_true, List.append_nil,
      List.mem_append] at hid ⊢
    exact hid.imp_right fun hid => .inl (mem_valueNamesBlock_of ihb hid)
  | forEach p target iter body orelse ihb _ =>
    simp only [valueNames, Bool.false_eq_true, if_false, if_true, List.append_nil,
      List.mem_append] at hid ⊢
    exact hid.imp_right fun hid => hid.imp_right fun hid => .inl (mem_valueNamesBlock_of ihb hid)
  | _ => exact hid

end Stmt

/-- The names that stand for values in a whole statement or are bound there, with or without those
of the blocks behind `else`. -/
def Block.valueNames (b : Block) (behindElse : Bool) : List String :=
  Stmt.valueNamesBlock behindElse b

/-- Whether a name starts as those of the constants of the API do. -/
def startsAsConstant (id : String) : Bool := "VK_".toList.isPrefixOf id.toList

namespace Subject

/-- Whether a name is one of the subject or of the API. -/
def knows (s : Subject) (id : String) : Bool := s.isParameter id || s.isToken id

/-- Whether a name is one of the subject or of the API and does not start as a constant. -/
def isTag (s : Subject) (id : String) : Bool := s.knows id && !startsAsConstant id

private theorem knows_of_nameType? {s : Subject} {id : String}
    (h : (s.nameType? id).isSome = true) :
    s.knows id = true := by
  unfold nameType? at h
  split at h
  · rename_i hid
    simp [knows, isToken, isNullName, hid]
  · split at h
    · rename_i hid
      simp [knows, isToken, isNullName, hid]
    · split at h
      · rename_i t ht
        have hm : s.isParameter id = true := by
          rw [isParameter]
          simpa [Registry.memberType?] using congrArg Option.isSome ht
        simp [knows, hm]
      · simp [knows, isToken, h]

end Subject

namespace Verification

variable {s : Subject} {scope : Scope} {visible : Locals} {bound : List String}

/-- Whether the names that a search knows to be bound have the visible ones among them, and none of
them is one of the subject or of the API. -/
structure Tracks (s : Subject) (visible : Locals) (bound : List String) : Prop where
  /-- The visible names are known. -/
  visible : ∀ id, visible.binds id = true → id ∈ bound
  /-- No name is one of the subject or of the API. -/
  foreign : ∀ id ∈ bound, s.knows id = false

private theorem Tracks.weaken {more : Locals} (h : Tracks s (more ++ visible) bound) :
    Tracks s visible bound := by
  refine ⟨fun id hid => h.visible id ?_, h.foreign⟩
  rw [Locals.binds, List.any_append]
  exact Bool.or_eq_true_iff.2 (.inr hid)

/-- What may be bound is a name, and not one of the subject or of the API. -/
theorem unknown_of_admits {target : Expr} (ht : visible.admits s target = true) :
    ∃ id, target.name? = some id ∧ s.knows id = false := by
  obtain ⟨id, hid, hadmits⟩ := Option.any_eq_true _ _ |>.1 ht
  simp only [Bool.and_eq_true, Bool.not_eq_true'] at hadmits
  obtain ⟨⟨-, hparameter⟩, htoken⟩ := hadmits
  exact ⟨id, hid, by rw [Subject.knows, hparameter, htoken, Bool.or_self]⟩

/-- The name of a target is known to be bound from there on. -/
theorem Tracks.bind {target : Expr} (h : Tracks s visible bound)
    (ht : visible.admits s target = true) (ofLoop : Bool) :
    Tracks s (Local.ofTarget ofLoop target ++ visible) (target.name?.toList ++ bound) := by
  obtain ⟨id, hid, hunknown⟩ := unknown_of_admits ht
  constructor
  · intro id' hid'
    simp only [Local.ofTarget, hid, Option.toList_some, Locals.binds, List.map_cons, List.map_nil,
      List.cons_append, List.nil_append, List.any_cons, Bool.or_eq_true, beq_iff_eq] at hid' ⊢
    rcases hid' with rfl | hid'
    · exact List.mem_cons_self
    · exact List.mem_cons_of_mem _ (h.visible id' hid')
  · intro id' hid'
    simp only [hid, Option.toList_some, List.cons_append, List.nil_append, List.mem_cons] at hid'
    rcases hid' with rfl | hid'
    · exact hunknown
    · exact h.foreign id' hid'

/-- A target is passed over. -/
theorem find?_valueNames_target {target : Expr} (ht : visible.admits s target = true) :
    target.valueNames.find? s.isTag = none := by
  obtain ⟨id, hid, hunknown⟩ := unknown_of_admits ht
  cases target with
  | name p id' =>
    obtain rfl : id' = id := Option.some.inj hid
    simp [Expr.valueNames, Subject.isTag, hunknown]
  | _ => exact absurd hid nofun

/-! ## Expressions -/

section Expr

/-- A name of an accepted statement is taken for that of a parameter if it is one of the subject or
of the API. -/
theorem isCandidate_eq {p : Pos} {id : String} (ha : Agrees scope visible)
    (ht : Tracks s visible bound) (hc : (checkExpr s scope (.name p id)).issues = []) :
    Tag.isCandidate bound id = s.isTag id := by
  have hbound : bound.contains id = !s.knows id := by
    rcases known_of_clean hc with hb | hn
    · have hmem := ht.visible id ((ha.binds id).trans hb)
      rw [ht.foreign id hmem]
      simpa using hmem
    · have hknows := Subject.knows_of_nameType? hn
      rw [hknows]
      have hmem : id ∉ bound := fun hm => absurd (hknows.symm.trans (ht.foreign id hm)) nofun
      simpa using hmem
  rw [Tag.isCandidate, hbound, Bool.not_not, Subject.isTag, startsAsConstant, Bool.and_comm]

private theorem inList?_eq_find? {es : List Expr}
    (h : ∀ e ∈ es, Tag.inExpr? bound e = e.valueNames.find? s.isTag) :
    Tag.inList? bound es = (Expr.valueNamesList es).find? s.isTag := by
  induction es with
  | nil => rfl
  | cons e es ih =>
    rw [Tag.inList?, Expr.valueNamesList, List.find?_append, h e List.mem_cons_self,
      ih fun e he => h e (List.mem_cons_of_mem _ he)]

/-- A predicate whose argument is searched has one. -/
theorem eq_singleton_of_clean_call {p q : Pos} {id : String} {args : List Expr}
    (hid : id = Predicate.require.name ∨ id = Predicate.externallySynchronized.name)
    (hc : (checkExpr s scope (.call p (.name q id) args)).issues = []) : ∃ arg, args = [arg] := by
  obtain ⟨pred, hpred, hlen, -, -⟩ := clean_call_name hc
  refine List.length_eq_one_iff.1 ?_
  rcases hid with rfl | rfl <;> rw [Predicate.ofName?_name] at hpred <;> cases hpred <;> exact hlen

private theorem mem_parts_of_searched {p q : Pos} {id : String} {arg : Expr}
    (hid : id = Predicate.require.name ∨ id = Predicate.externallySynchronized.name) :
    (.argument, arg) ∈ (Expr.call p (.name q id) [arg]).parts := by
  have hmacro : id ≠ Predicate.textMacro.name := by rcases hid with rfl | rfl <;> decide
  simp [Expr.parts, hmacro]

/-- In an accepted expression the search finds the first name of the subject or of the API. -/
theorem inExpr?_eq_find? (ha : Agrees scope visible) (ht : Tracks s visible bound) (e : Expr)
    (hc : (checkExpr s scope e).issues = []) :
    Tag.inExpr? bound e = e.valueNames.find? s.isTag := by
  have ih : ∀ q ∈ e.parts, Tag.inExpr? bound q.2 = q.2.valueNames.find? s.isTag := by
    intro q hq
    have := Expr.sizeOf_lt_of_mem_parts hq
    exact inExpr?_eq_find? ha ht q.2
      (acceptsWithin_parts ha.free hc (List.Subset.refl _) q hq).clean
  cases e with
  | name p id =>
    rw [Tag.inExpr?, isCandidate_eq ha ht hc, Expr.valueNames]
    cases hid : s.isTag id <;> simp [hid]
  | call p func args =>
    cases func with
    | name q id =>
      by_cases hid : id = Predicate.require.name ∨ id = Predicate.externallySynchronized.name
      · obtain ⟨arg, rfl⟩ := eq_singleton_of_clean_call hid hc
        have hsearch : Tag.searchesArgument id = true := by simpa [Tag.searchesArgument] using hid
        have harg := ih (.argument, arg) (mem_parts_of_searched hid)
        simpa [Tag.inExpr?, Expr.valueNames, Expr.valueNamesList, hsearch, hid] using harg
      · have hsearch : Tag.searchesArgument id = false := by
          simpa [Tag.searchesArgument] using hid
        cases args <;> simp [Tag.inExpr?, Expr.valueNames, hsearch, hid]
    | member q receiver attr => exact ih (.receiver, receiver) List.mem_cons_self
    | _ => simp [checkExpr] at hc
  | boolOp p op values =>
    exact inList?_eq_find? fun e he => ih (.condition, e) (List.mem_map_of_mem he)
  | compare p left ops comparators =>
    rw [Tag.inExpr?, Expr.valueNames, List.find?_append,
      ih (.ofComparison ops, left) (List.mem_map_of_mem List.mem_cons_self),
      inList?_eq_find? fun e he =>
        ih (.ofComparison ops, e) (List.mem_map_of_mem (List.mem_cons_of_mem _ he))]
  | unary p op operand => exact ih (.operand, operand) List.mem_cons_self
  | member p value attr => exact ih (.record, value) List.mem_cons_self
  | binary p left op right =>
    rw [Tag.inExpr?, Expr.valueNames, List.find?_append, ih (.operand, left) (by simp [Expr.parts]),
      ih (.operand, right) (by simp [Expr.parts])]
  | subscript p value index =>
    rw [Tag.inExpr?, Expr.valueNames, List.find?_append, ih (.array, value) (by simp [Expr.parts]),
      ih (.index, index) (by simp [Expr.parts])]
  | ifExp p test body orelse =>
    rw [Tag.inExpr?, Expr.valueNames, List.find?_append, List.find?_append,
      ih (.condition, test) (by simp [Expr.parts]), ih (.branch, body) (by simp [Expr.parts]),
      ih (.branch, orelse) (by simp [Expr.parts])]
  | const p value => rfl
  | tuple p elts | list p elts | slice p lower upper step => simp [checkExpr] at hc
termination_by sizeOf e

end Expr

/-! ## Statements -/

section Stmt

/-- What is known of the uses, the targets and the statements in a part of an accepted statement. -/
structure Resolves (s : Subject) (uses : List Use) (targets : List (Locals × Expr))
    (statements : List Stmt) : Prop where
  /-- Every expression has no issue in a scope with the names that are visible. -/
  clean : ∀ u ∈ uses, ∃ scope, Agrees scope u.visible ∧ (checkExpr s scope u.expr).issues = []
  /-- Every target may be bound. -/
  admits : ∀ t ∈ targets, t.1.admits s t.2 = true
  /-- Every statement is of a form that the language has. -/
  forms : ∀ x ∈ statements, x.isInLanguage = true

/-- What resolves all uses, targets and statements resolves some of them. -/
theorem Resolves.mono {us us' : List Use} {ts ts' : List (Locals × Expr)} {xs xs' : List Stmt}
    (h : Resolves s us ts xs) (hu : us' ⊆ us) (ht : ts' ⊆ ts) (hx : xs' ⊆ xs) :
    Resolves s us' ts' xs' :=
  ⟨fun u h' => h.clean u (hu h'), fun t h' => h.admits t (ht h'), fun x h' => h.forms x (hx h')⟩

/-- In an expression of the statement the search finds the first name of the subject or of the
API. -/
theorem Resolves.find (role : Role) (e : Expr) {us : List Use} {ts : List (Locals × Expr)}
    {xs : List Stmt} (h : Resolves s us ts xs) (hu : Stmt.usesAt visible role e ⊆ us)
    (ht : Tracks s visible bound) : Tag.inExpr? bound e = e.valueNames.find? s.isTag := by
  obtain ⟨scope, ha, hc⟩ :=
    h.clean _ (hu (List.mem_map_of_mem (Expr.self_mem_uses role e)))
  exact inExpr?_eq_find? ha ht e hc

@[simp] theorem inBody_some (bound : List String) (name : String) (b : Block) :
    Tag.inBody bound (some name) b = ⟨bound, some name⟩ := by
  cases b <;> rfl

/-- Whether a search found the first of some names that is one of the subject or of the API, and
goes on, if there is none, with the names that are visible. -/
structure Searched (s : Subject) (visible : Locals) (names : List String) (r : Tag.Search) :
    Prop where
  /-- What is found is the first such name. -/
  found : r.found = names.find? s.isTag
  /-- Without one, the visible names are known from there on. -/
  tracks : r.found = none → Tracks s visible r.bound

/-- What a search comes to in a statement. -/
def SearchesIn (s : Subject) (x : Stmt) : Prop :=
  ∀ visible bound, Tracks s visible bound →
    Resolves s (x.uses visible) (x.targets visible) x.nested →
      Searched s (x.assigns ++ visible) (x.valueNames false) (Tag.inStmt bound x)

private theorem searched_body {b : Block} (h : ∀ x ∈ b, SearchesIn s x)
    (ht : Tracks s visible bound)
    (hr : Resolves s (Stmt.usesBlock visible b) (Stmt.targetsBlock visible b)
      (Stmt.nestedBlock b)) :
    Searched s visible (Stmt.valueNamesBlock false b) (Tag.inBody bound none b) := by
  induction b generalizing visible bound with
  | nil => exact ⟨rfl, fun _ => ht⟩
  | cons x xs ih =>
    have hx := h x List.mem_cons_self visible bound ht
      (hr.mono (List.subset_append_left _ _) (List.subset_append_left _ _)
        (List.subset_append_left _ _))
    rw [Tag.inBody]
    cases hfound : (Tag.inStmt bound x).found with
    | some name =>
      have hname : (x.valueNames false).find? s.isTag = some name := hx.found.symm.trans hfound
      refine ⟨?_, fun hnone => ?_⟩
      · rw [inBody_some, Stmt.valueNamesBlock, List.find?_append, hname, Option.some_or]
      · rw [inBody_some] at hnone
        exact absurd hnone nofun
    | none =>
      have hrest := ih (fun y hy => h y (List.mem_cons_of_mem _ hy)) (hx.tracks hfound)
        (hr.mono (List.subset_append_right _ _) (List.subset_append_right _ _)
          (List.subset_append_right _ _))
      have hnone : (x.valueNames false).find? s.isTag = none := hx.found.symm.trans hfound
      refine ⟨?_, fun hn => (hrest.tracks hn).weaken⟩
      rw [hrest.found, Stmt.valueNamesBlock, List.find?_append, hnone, Option.none_or]

/-- A body is searched if nothing is found in front of it. -/
theorem searched_behind {b : Block} {front : List String} {found : Option String}
    (hfront : found = front.find? s.isTag)
    (hb : Searched s visible (Stmt.valueNamesBlock false b) (Tag.inBody bound none b)) :
    Searched s visible (front ++ Stmt.valueNamesBlock false b) (Tag.inBody bound found b) := by
  cases found with
  | some name =>
    refine ⟨?_, fun hnone => ?_⟩
    · rw [inBody_some, List.find?_append, ← hfront, Option.some_or]
    · rw [inBody_some] at hnone
      exact absurd hnone nofun
  | none =>
    refine ⟨?_, hb.tracks⟩
    rw [hb.found, List.find?_append, ← hfront, Option.none_or]

private theorem Searched.weaken {more : Locals} {names : List String} {r : Tag.Search}
    (h : Searched s (more ++ visible) names r) : Searched s visible names r :=
  ⟨h.found, fun hn => (h.tracks hn).weaken⟩

/-- A comment names nothing. -/
theorem valueNames_of_isComment {p : Pos} {value : Expr}
    (h : (Stmt.expr p value).isComment = true) : value.valueNames = [] := by
  obtain ⟨text, ht⟩ := Option.isSome_iff_exists.1 h
  obtain ⟨p₁, p₂, p₃, rfl⟩ := Stmt.eq_call_of_comment? ht
  rfl

/-- In an accepted statement the search finds the first name of the subject or of the API. -/
theorem searchesIn (s : Subject) (x : Stmt) : SearchesIn s x := by
  induction x using Stmt.partsInduction with
  | assign p targets value =>
    intro visible bound ht hr
    obtain ⟨target, rfl⟩ : ∃ target, targets = [target] :=
      List.length_eq_one_iff.1 (by simpa [Stmt.isInLanguage] using hr.forms _ List.mem_cons_self)
    have hadmits : visible.admits s target = true := hr.admits _ List.mem_cons_self
    have hbehind := ht.bind hadmits false
    have hbound : [target].filterMap Expr.name? = target.name?.toList := by
      cases hn : target.name? <;> simp [hn]
    have hvalue := hr.find .assigned value (List.Subset.refl _) hbehind.weaken
    refine ⟨?_, fun _ => ?_⟩
    · simp only [Tag.inStmt, Stmt.valueNames, Expr.valueNamesList, List.append_nil,
        List.find?_append, find?_valueNames_target hadmits, Option.none_or, hbound]
      exact hvalue
    · simpa only [Tag.inStmt, Stmt.assigns, hbound, List.flatMap_cons, List.flatMap_nil,
        List.append_nil] using hbehind
  | ifElse p test body orelse ihb _ =>
    intro visible bound ht hr
    have hbody := searched_body ihb ht (hr.mono (by simp [Stmt.uses]) (by simp [Stmt.targets])
      (by simp [Stmt.nested]))
    have htest := hr.find .condition test (by simp [Stmt.uses]) ht
    simpa [Stmt.valueNames, Stmt.assigns, Tag.inStmt] using searched_behind htest hbody
  | forEach p target iter body orelse ihb _ =>
    intro visible bound ht hr
    have hadmits : visible.admits s target = true := hr.admits _ List.mem_cons_self
    have hinner := ht.bind hadmits true
    have hbody := searched_body ihb hinner (hr.mono (by simp [Stmt.uses])
      (by simp [Stmt.targets]) (by simp [Stmt.nested]))
    have hiter := hr.find .iterator iter (by simp [Stmt.uses]) hinner.weaken
    have hfound : (Tag.inExpr? (target.name?.toList ++ bound) iter) =
        (target.valueNames ++ iter.valueNames).find? s.isTag := by
      rw [List.find?_append, find?_valueNames_target hadmits, Option.none_or, hiter]
    simpa [Stmt.valueNames, Stmt.assigns, Tag.inStmt] using
      (searched_behind hfound hbody).weaken
  | expr p value =>
    intro visible bound ht hr
    cases hcomment : (Stmt.expr p value).isComment with
    | true =>
      refine ⟨?_, fun _ => ?_⟩
      · simp [Tag.inStmt, hcomment, Stmt.valueNames, valueNames_of_isComment hcomment]
      · simpa [Tag.inStmt, hcomment, Stmt.assigns] using ht
    | false =>
      have hvalue := hr.find .statement value (by simp [Stmt.uses, hcomment]) ht
      refine ⟨?_, fun _ => ?_⟩
      · simpa [Tag.inStmt, hcomment, Stmt.valueNames] using hvalue
      · simpa [Tag.inStmt, hcomment, Stmt.assigns] using ht
  | pass p =>
    intro visible bound ht _
    exact ⟨rfl, fun _ => ht⟩
  | _ =>
    intro visible bound ht hr
    exact absurd (hr.forms _ List.mem_cons_self) Bool.false_ne_true

end Stmt
end Verification

namespace Block

open Verification

variable {s : Subject} {b : Block}

/-- The tag of an accepted statement without references to macros is the first name outside of the
blocks behind `else` that is one of the subject or of the API and does not start as a constant. -/
theorem parameterTag_eq (h : (b.verify s).isOk = true)
    (hm : ∀ x ∈ b.walk, x.callName? ≠ some Predicate.textMacro.name) :
    b.parameterTag = ((b.valueNames false).find? s.isTag).getD noTag := by
  have hmacro : Tag.firstMacro? b = none := by
    refine List.findSome?_eq_none_iff.2 fun x hx => ?_
    cases hname : Tag.macroName? x with
    | none => rfl
    | some name =>
      unfold Tag.macroName? at hname
      split at hname
      · rename_i id args
        split at hname
        · rename_i hid
          exact absurd (congrArg some hid) (hm _ hx)
        · exact absurd hname nofun
      · exact absurd hname nofun
  obtain ⟨hf, -⟩ := finds_of_isOk h
  have hr : Resolves s b.uses b.targets b.statements := by
    refine ⟨fun u hu => ?_, hf.admits, hf.forms⟩
    obtain ⟨scope, ha, hc, -⟩ := hf.accepts u hu (ne_text_of_mem_uses hm u hu)
    exact ⟨scope, ha, hc⟩
  have ht : Tracks s [] [] := ⟨nofun, nofun⟩
  have hsearched := searched_body (fun x _ => searchesIn s x) ht hr
  rw [parameterTag, hmacro, hsearched.found, valueNames]

/-- The parameter tag of an accepted statement without references to macros is a parameter that it
names if it names one, and none otherwise. This holds if a statement that names a parameter does so
outside of the blocks behind `else`, no parameter there starts as a constant, and in front of every
other name of the API there that does not start as a constant stands a parameter. -/
theorem isParameter_parameterTag (h : (b.verify s).isOk = true)
    (hm : ∀ x ∈ b.walk, x.callName? ≠ some Predicate.textMacro.name)
    (helse : (∃ id ∈ b.valueNames true, s.isParameter id = true) →
      ∃ id ∈ b.valueNames false, s.isParameter id = true)
    (hstart : ∀ id ∈ b.valueNames false, s.isParameter id = true → startsAsConstant id = false)
    (hfront : ∀ u id r, b.valueNames false = u ++ id :: r → s.isToken id = true →
      s.isParameter id = false → startsAsConstant id = false →
      ∃ id ∈ u, s.isParameter id = true) :
    if ∃ id ∈ b.valueNames true, s.isParameter id = true then
      b.parameterTag ∈ b.valueNames true ∧ s.isParameter b.parameterTag = true
    else b.parameterTag = noTag := by
  have hsub {id : String} (hid : id ∈ b.valueNames false) : id ∈ b.valueNames true :=
    Stmt.mem_valueNamesBlock_of (fun x _ => x.mem_valueNames_of) hid
  have htag {id : String} (hid : id ∈ b.valueNames false) (hp : s.isParameter id = true) :
      s.isTag id = true := by
    simp [Subject.isTag, Subject.knows, hp, hstart id hid hp]
  -- The first name that is taken for a parameter is one.
  have hfirst {id : String} (hid : (b.valueNames false).find? s.isTag = some id) :
      s.isParameter id = true := by
    obtain ⟨hid, u, r, hsplit, hnone⟩ := List.find?_eq_some_iff_append.1 hid
    simp only [Subject.isTag, Subject.knows, Bool.and_eq_true, Bool.or_eq_true,
      Bool.not_eq_true'] at hid
    obtain ⟨hknows, hconstant⟩ := hid
    cases hp : s.isParameter id with
    | true => rfl
    | false =>
      obtain ⟨id', hmem, hp'⟩ :=
        hfront u id r hsplit (hknows.resolve_left (by simp [hp])) hp hconstant
      have hfalse := hnone id' hmem
      rw [htag (by rw [hsplit]; exact List.mem_append_left _ hmem) hp'] at hfalse
      exact absurd hfalse nofun
  rw [parameterTag_eq h hm]
  cases hfind : (b.valueNames false).find? s.isTag with
  | some id =>
    have hid := hsub (List.mem_of_find?_eq_some hfind)
    rw [if_pos ⟨id, hid, hfirst hfind⟩]
    exact ⟨hid, hfirst hfind⟩
  | none =>
    rw [if_neg]
    · rfl
    · intro hex
      obtain ⟨id, hid, hp⟩ := helse hex
      exact absurd (htag hid hp) (List.find?_eq_none.1 hfind id hid)

/-- A command that copies regions. -/
private def copyCommand : Subject where
  registry := { entities := [{
    name := "vkCmdCopyRegions", category := .command,
    members := [⟨"regionCount", "uint32_t", 0, none, none⟩,
      ⟨"pRegions", "VkRegion", 1, some "regionCount", none⟩] }] }
  api := "vkCmdCopyRegions"

/-- The requirement that there are regions. -/
private def someRegions (count : Expr) : Stmt :=
  .expr .none (.call .none (.name .none "require")
    [.compare .none count [.gt] [.const .none (.int 0)]])

/-- If there are regions, their number, as a local, is not zero. -/
private def countIfRegions : Block :=
  [.assign .none [.name .none "count"] (.name .none "regionCount"),
    .ifElse .none (.compare .none (.name .none "pRegions") [.notEq] [.name .none "NULL"])
      [someRegions (.name .none "count")] []]

/-- A parameter that gets another name, and null behind a parameter. -/
theorem isParameter_parameterTag_local :
    (countIfRegions.verify copyCommand).isOk = true ∧
      countIfRegions.valueNames true =
        ["count", "regionCount", "pRegions", "NULL", "count"] ∧
      countIfRegions.parameterTag ∈ countIfRegions.valueNames true ∧
      copyCommand.isParameter countIfRegions.parameterTag = true := by
  have hok : (countIfRegions.verify copyCommand).isOk = true := by decide +kernel
  have hm : ∀ x ∈ countIfRegions.walk, x.callName? ≠ some Predicate.textMacro.name := by
    decide +kernel
  have htrue : countIfRegions.valueNames true =
      ["count", "regionCount", "pRegions", "NULL", "count"] := by decide +kernel
  have hfalse : countIfRegions.valueNames false =
      ["count", "regionCount", "pRegions", "NULL", "count"] := by decide +kernel
  have hcount : copyCommand.isParameter "regionCount" = true := by decide +kernel
  have helse : (∃ id ∈ countIfRegions.valueNames true, copyCommand.isParameter id = true) →
      ∃ id ∈ countIfRegions.valueNames false, copyCommand.isParameter id = true := by
    intro _
    exact ⟨"regionCount", by rw [hfalse]; decide, hcount⟩
  have hstart : ∀ id ∈ countIfRegions.valueNames false, copyCommand.isParameter id = true →
      startsAsConstant id = false := by
    rw [hfalse]
    decide +kernel
  have hfront : ∀ u id r, countIfRegions.valueNames false = u ++ id :: r →
      copyCommand.isToken id = true → copyCommand.isParameter id = false →
      startsAsConstant id = false → ∃ id ∈ u, copyCommand.isParameter id = true := by
    intro u id r hsplit htoken hparameter _
    rw [hfalse] at hsplit
    match u, hsplit with
    | [], hsplit =>
      obtain rfl : "count" = id := (List.cons.inj hsplit).1
      exact absurd htoken (by decide +kernel)
    | [_], hsplit =>
      obtain rfl : "regionCount" = id := (List.cons.inj (List.cons.inj hsplit).2).1
      exact absurd (hcount.symm.trans hparameter) nofun
    | _ :: name :: _, hsplit =>
      obtain rfl : "regionCount" = name := (List.cons.inj (List.cons.inj hsplit).2).1
      exact ⟨"regionCount", by simp, hcount⟩
  have htag := isParameter_parameterTag hok hm helse hstart hfront
  rw [if_pos ⟨"regionCount", by rw [htrue]; decide, hcount⟩] at htag
  exact ⟨hok, htrue, htag⟩

/-- The requirement that a version is enabled, or else that there are regions. -/
private def regionsWithoutVersion : Block :=
  [.ifElse .none (.call .none (.name .none "is_version")
      [.const .none (.int 1), .const .none (.int 1)])
    [.pass .none] [someRegions (.name .none "regionCount")]]

/-- The requirement that null is not what points to the regions. -/
private def nullIsNotRegions : Block :=
  [.expr .none (.call .none (.name .none "require")
    [.compare .none (.name .none "NULL") [.notEq] [.name .none "pRegions"]])]

/-- A parameter behind null, or in a block behind `else`, is missed. -/
theorem parameterTag_misses :
    ((nullIsNotRegions.verify copyCommand).isOk = true ∧
      copyCommand.isParameter "pRegions" = true ∧ "pRegions" ∈ nullIsNotRegions.valueNames true ∧
      nullIsNotRegions.parameterTag = "NULL" ∧ copyCommand.isParameter "NULL" = false) ∧
    ((regionsWithoutVersion.verify copyCommand).isOk = true ∧
      copyCommand.isParameter "regionCount" = true ∧
      "regionCount" ∈ regionsWithoutVersion.valueNames true ∧
      regionsWithoutVersion.parameterTag = noTag) := by
  decide +kernel

end Block
end ValidUsage
