import ValidUsage.Proofs.Visits

/-!
# Types of accepted statements

A type says what a value is if it is not the unknown type and if, as that of a structure, it has a
name. The registry gives such types when its entities and the types of its members have names, and
every rule but one keeps them so: `pnext` gives the structure whose name it is called with, and when
it is called with something else, which acceptance allows, its type has no name. So the types of an
accepted statement all say what they are exactly when every call of `pnext` has the name of a
structure.
-/

namespace ValidUsage

/-- Whether a type says what a value is: it is known and, as that of a structure, has a name. -/
structure Ty.IsDefined (t : Ty) : Prop where
  /-- The type is known. -/
  known : t.isUnknown = false
  /-- A structure has a name. -/
  named : t.cls = .struct → t.name ≠ ""

/-- Whether the entities of a registry and the types of their members have names. -/
structure Registry.IsNamed (r : Registry) : Prop where
  /-- Entities have names. -/
  entities : ∀ e ∈ r.entities, e.name ≠ ""
  /-- The types of members have names. -/
  members : ∀ e ∈ r.entities, ∀ m ∈ e.members, m.typeName ≠ ""

namespace Expr

/-- The arguments of a call of `pnext`, of either kind. -/
def chainArgs? : Expr → Option (List Expr)
  | call _ (name _ id) args => if id = Predicate.pnext.name then some args else none
  | call _ (member _ _ attr) args => if attr = Method.pnext.name then some args else none
  | _ => none

/-- Whether expressions are one name, which is not empty. -/
def areName : List Expr → Bool
  | [name _ id] => id != ""
  | _ => false

/-- Whether an expression, if it is a call of `pnext`, is one with a name. -/
def namesChained (e : Expr) : Bool := e.chainArgs?.all areName

end Expr

/-- The classes that do not tell what a value is without a name. -/
def TyClass.needsName : TyClass → Bool
  | .void | .struct | .structName => true
  | _ => false

namespace Ty

/-- Whether a type has a name where its class needs one. This stays when pointers are followed, and
it makes the type defined. -/
def IsTold (t : Ty) : Prop := t.cls.needsName = true → t.name ≠ ""

variable {t : Ty}

/-- A type that is told is known. -/
theorem IsTold.isUnknown (h : t.IsTold) : t.isUnknown = false := by
  cases hu : t.isUnknown with
  | false => rfl
  | true =>
    simp only [Ty.isUnknown, Bool.and_eq_true, beq_iff_eq, String.isEmpty_iff] at hu
    exact absurd hu.1.2 (h (by rw [hu.1.1]; rfl))

private theorem IsTold.isDefined (h : t.IsTold) : t.IsDefined :=
  ⟨h.isUnknown, fun hc => h (by rw [hc]; rfl)⟩

/-- So is what it points to. -/
theorem IsTold.dereferenced (h : t.IsTold) : t.dereferenced.IsTold := h

/-- So is the type of its elements. -/
theorem IsTold.indexed (h : t.IsTold) : t.indexed.IsTold := h

private theorem IsTold.of_cls (h : t.cls.needsName = false) : t.IsTold := fun hn =>
  absurd (h.symm.trans hn) (by decide)

private theorem isTold_struct {name : String} (h : name ≠ "") : (struct name).IsTold := fun _ => h

end Ty

namespace Registry

variable {r : Registry}

/-- An entity that is found is one of the registry. -/
theorem mem_of_lookup? {name : String} {e : Entity} (h : r.lookup? name = some e) :
    e ∈ r.entities :=
  List.mem_reverse.1 (List.mem_of_find?_eq_some h)

private theorem mem_of_resolve? {name : String} {e : Entity} (h : r.resolve? name = some e) :
    e ∈ r.entities := by
  obtain ⟨e', he', h⟩ := Option.bind_eq_some_iff.1 h
  split at h
  · exact mem_of_lookup? h
  · obtain rfl := Option.some.inj h
    exact mem_of_lookup? he'

/-- The type of a name of a registry is told, and not that of truth values. -/
theorem IsNamed.tokenType? (hr : r.IsNamed) {name : String} {t : Ty}
    (h : r.tokenType? name = some t) : t.IsTold ∧ t.cls ≠ .bool := by
  have other {c : TyClass} {n : String} (hc : c.needsName = false) (hb : c ≠ .bool)
      (h : some (⟨c, n, 0, none⟩ : Ty) = some t) : t.IsTold ∧ t.cls ≠ .bool := by
    obtain rfl := Option.some.inj h
    exact ⟨.of_cls hc, hb⟩
  unfold Registry.tokenType? at h
  split at h
  · obtain rfl := Option.some.inj h
    exact ⟨fun _ => by decide, by decide⟩
  split at h
  · exact other rfl (by decide) h
  split at h
  · exact other rfl (by decide) h
  split at h
  · exact other rfl (by decide) h
  split at h
  · exact other rfl (by decide) h
  split at h
  · rename_i e he
    obtain ⟨cls, hcls, rfl⟩ := Option.map_eq_some_iff.1 h
    refine ⟨fun _ => hr.entities e (mem_of_resolve? he), ?_⟩
    rintro rfl
    cases hcat : e.category <;> simp [Category.cls?, hcat] at hcls
  split at h
  · exact other rfl (by decide) h
  split at h
  · exact other rfl (by decide) h
  · cases h

private theorem mem_of_findMember? {entity member : String} {m : Member}
    (h : r.findMember? entity member = some m) : ∃ e ∈ r.entities, m ∈ e.members := by
  have of_bind {o : Option Entity} (ho : ∀ e, o = some e → e ∈ r.entities)
      (h : o.bind (·.member? member) = some m) : ∃ e ∈ r.entities, m ∈ e.members := by
    obtain ⟨e, he, hm⟩ := Option.bind_eq_some_iff.1 h
    exact ⟨e, ho e he, List.mem_of_find?_eq_some hm⟩
  simp only [findMember?] at h
  split at h
  · rename_i m' hm
    exact of_bind (fun e => mem_of_lookup?) (hm.trans h)
  · exact of_bind (fun e => mem_of_resolve?) h

/-- The type of a member is told, and is no truth value. -/
theorem IsNamed.memberType? (hr : r.IsNamed) {entity member : String} {t : Ty}
    (h : r.memberType? entity member = some t) : t.IsTold ∧ t.cls ≠ .bool := by
  obtain ⟨m, hm, rfl⟩ := Option.map_eq_some_iff.1 h
  obtain ⟨e, he, hme⟩ := mem_of_findMember? hm
  cases ht : r.tokenType? m.typeName with
  | none =>
    have hname := hr.members e he m hme
    cases m.fixedLen <;> exact ⟨fun _ => hname, nofun⟩
  | some t =>
    obtain ⟨htold, hbool⟩ := hr.tokenType? ht
    obtain ⟨cls, name, pointer, len⟩ := t
    cases cls with
    | structName =>
      have hname : name ≠ "" := htold rfl
      cases m.fixedLen <;> exact ⟨fun _ => hname, nofun⟩
    | _ => cases m.fixedLen <;> exact ⟨htold, hbool⟩

end Registry

namespace UnaryOp

private theorem isTold_result (op : UnaryOp) : op.result.IsTold := by
  cases op <;> exact .of_cls rfl

end UnaryOp

namespace BinOp

private theorem isTold_result (op : BinOp) : op.result.IsTold := by
  unfold result
  split <;> exact .of_cls rfl

end BinOp

/-- The type of a name that a statement does not bind is told, and not that of truth values. -/
theorem Subject.isTold_nameType? {s : Subject} (hr : s.registry.IsNamed) {name : String} {t : Ty}
    (h : s.nameType? name = some t) : t.IsTold ∧ t.cls ≠ .bool := by
  unfold nameType? at h
  split at h
  · obtain rfl := Option.some.inj h
    exact ⟨fun _ => by decide, by decide⟩
  split at h
  · obtain rfl := Option.some.inj h
    exact ⟨.of_cls rfl, nofun⟩
  split at h
  · rename_i t' ht
    obtain rfl := Option.some.inj h
    exact hr.memberType? ht
  · exact hr.tokenType? h

namespace Verification

variable {s : Subject} {scope : Scope} {e : Expr}

/-! ## What each rule gives -/

section Rules

variable {left right : Expr} {t l r : Ty}

private theorem isTold_typeOfName (hr : s.registry.IsNamed) (hs : ∀ b ∈ scope, b.type.IsTold)
    {id : String}
    (hc : (typeOfName s scope e id).issues = []) : (typeOfName s scope e id).value.IsTold := by
  generalize hx : typeOfName s scope e id = x at hc ⊢
  unfold typeOfName at hx
  split at hx
  · simp [← hx] at hc
  split at hx
  · rename_i b hb
    rw [← hx]
    exact hs b (List.mem_of_find?_eq_some hb)
  split at hx
  · rename_i t ht
    rw [← hx]
    exact (Subject.isTold_nameType? hr ht).1
  · simp [← hx] at hc

private theorem isTold_typeOfUnary (op : UnaryOp) (ht : t.IsTold) :
    (typeOfUnary op e t).value.IsTold := by
  unfold typeOfUnary
  repeat' split
  all_goals first | exact op.isTold_result | exact ht

private theorem isTold_typeOfBinary (op : BinOp) (hl : l.IsTold) (hr : r.IsTold) :
    (typeOfBinary s left right op l r).value.IsTold := by
  have hflags :
      (if l.cls = .bitmask then l else if r.cls = .bitmask then r else op.result).IsTold := by
    split
    · exact hl
    split
    · exact hr
    · exact op.isTold_result
  unfold typeOfBinary
  split
  · exact op.isTold_result
  split
  · exact op.isTold_result
  split
  · exact .of_cls rfl
  · by_cases hf : (!isFlagsType l || !isFlagsType r) = true
    · simp only [hf, if_true]
      exact hflags
    · simp only [hf]
      exact hflags

private theorem isTold_typeOfChoice (hl : l.IsTold) (hr : r.IsTold) :
    (typeOfChoice s left right l r).value.IsTold := by
  unfold typeOfChoice
  split
  · exact hr
  split
  · exact hl
  · simp only [Checked.value_bind, Checked.value_pure]
    split
    · exact hr
    · exact hl

private theorem isTold_typeOfMember (hr : s.registry.IsNamed) (ht : t.IsTold) {attr : String}
    (hc : (typeOfMember s e attr t).issues = []) : (typeOfMember s e attr t).value.IsTold := by
  generalize hx : typeOfMember s e attr t = x at hc ⊢
  simp only [typeOfMember] at hx
  split at hx
  · rw [← hx]
    exact ht.dereferenced
  split at hx
  · simp [← hx] at hc
  split at hx
  · simp [← hx] at hc
  split at hx
  · rename_i t' ht'
    rw [← hx]
    exact (hr.memberType? ht').1
  · simp [← hx] at hc

private theorem isTold_typeOfElement (hl : l.IsTold)
    (hc : (typeOfElement left right l r).issues = []) :
    (typeOfElement left right l r).value.IsTold := by
  generalize hx : typeOfElement left right l r = x at hc ⊢
  unfold typeOfElement at hx
  split at hx
  · rw [← hx]
    exact hl
  split at hx
  · simp [← hx] at hc
  · rw [← hx]
    exact hl.indexed

/-- A predicate that is called by its name gives a told type, if the one that gives a structure is
told which. -/
theorem isTold_typeOfCall {q : Predicate} {args : List Expr}
    (h : q = .pnext → Expr.areName args = true) : (typeOfCall q args).IsTold := by
  by_cases hq : q = .pnext
  · subst hq
    have hargs := h rfl
    unfold Expr.areName at hargs
    split at hargs
    · exact Ty.isTold_struct (by simpa using hargs)
    · exact absurd hargs (by decide)
  · have he : typeOfCall q args = q.signature.result := by
      unfold typeOfCall
      split <;> first | exact absurd rfl hq | rfl
    rw [he]
    cases q with
    | pnext => exact absurd rfl hq
    | require | textMacro => exact fun _ => by decide
    | _ => exact .of_cls rfl

/-- A predicate that is called on a receiver of a told type gives a told type, if the one that gives
a structure of the chain is told which. -/
theorem isTold_typeOfMethod {m : Method} {args : List Expr} (ht : t.IsTold)
    (h : m = .pnext → Expr.areName args = true) : (typeOfMethod m args t).IsTold := by
  have info (name : String) (hm : m.returnedStruct? t.name (args.head?.bind Expr.name?) = some name)
      (hne : name ≠ "") : (typeOfMethod m args t).IsTold := by
    simp only [typeOfMethod, hm, ht.isUnknown, Bool.not_false, Bool.true_or, if_true]
    exact Ty.isTold_struct hne
  cases m with
  | pnext =>
    have hargs := h rfl
    unfold Expr.areName at hargs
    split at hargs
    · exact info _ rfl (by simpa using hargs)
    · exact absurd hargs (by decide)
  | createInfo => exact info _ rfl (by simp [String.append_eq_empty_iff])
  | graphicsCreateInfo | computeCreateInfo | rayTracingCreateInfo =>
    exact info _ rfl (by simp [Method.pipelineInfo, String.append_eq_empty_iff])
  | _ => exact .of_cls rfl

private theorem value_call_name {p q : Pos} {id : String} {args : List Expr} {pred : Predicate}
    (hid : Predicate.ofName? id = some pred) (hlen : args.length = pred.signature.args.length) :
    (checkExpr s scope (.call p (.name q id) args)).value = typeOfCall pred args := by
  simp only [checkExpr, hid, hlen, ne_eq, not_true_eq_false, if_false]
  repeat' split
  all_goals rfl

private theorem value_call_member {p q : Pos} {receiver : Expr} {attr : String} {args : List Expr}
    {m : Method} (hid : Method.ofName? attr = some m)
    (hlen : args.length = m.signature.args.length) :
    (checkExpr s scope (.call p (.member q receiver attr) args)).value =
      typeOfMethod m args (checkExpr s scope receiver).value.dereferenced := by
  simp [checkExpr, hid, hlen]

end Rules

/-! ## Types of expressions -/

section Types

variable {T : List (Expr × Ty)}

/-- An accepted expression without parts is no call of `pnext`. -/
theorem namesChained_of_parts_eq_nil (hc : (checkExpr s scope e).issues = []) (h : e.parts = []) :
    e.namesChained = true := by
  cases e with
  | call p func args =>
    cases func with
    | name q id =>
      by_cases hid : id = Predicate.pnext.name
      · subst hid
        obtain ⟨pred, hpred, hlen, -⟩ := clean_call_name hc
        obtain rfl : pred = .pnext := by simpa [Predicate.ofName?_name] using hpred.symm
        obtain ⟨arg, rfl⟩ := List.length_eq_one_iff.1 hlen
        exact absurd h (by simp [Expr.parts, Predicate.name])
      · simp [Expr.namesChained, Expr.chainArgs?, hid]
    | member q receiver attr => exact absurd h (by simp [Expr.parts])
    | _ => rfl
  | _ => rfl

/-- The type of an accepted expression is told if those of its parts are. -/
theorem isTold_of_parts (hr : s.registry.IsNamed) (hs : ∀ b ∈ scope, b.type.IsTold)
    (hc : (checkExpr s scope e).issues = []) (hn : e.namesChained = true)
    (hp : ∀ q ∈ e.parts, (checkExpr s scope q.2).value.IsTold) :
    (checkExpr s scope e).value.IsTold := by
  cases e with
  | boolOp | compare => exact .of_cls rfl
  | binary p left op right =>
    exact isTold_typeOfBinary op (hp (.operand, left) (by simp [Expr.parts]))
      (hp (.operand, right) (by simp [Expr.parts]))
  | unary p op operand =>
    exact isTold_typeOfUnary op (hp (.operand, operand) (by simp [Expr.parts]))
  | call p func args =>
    cases func with
    | name q id =>
      obtain ⟨pred, hid, hlen, -⟩ := clean_call_name hc
      rw [value_call_name hid hlen]
      apply isTold_typeOfCall
      rintro rfl
      obtain rfl := Predicate.name_of_ofName? hid
      simpa [Expr.namesChained, Expr.chainArgs?] using hn
    | member q receiver attr =>
      obtain ⟨m, hid, -, -, hlen, -⟩ := clean_call_member hc
      rw [value_call_member hid hlen]
      apply isTold_typeOfMethod (hp (.receiver, receiver) (by simp [Expr.parts])).dereferenced
      rintro rfl
      obtain rfl := Method.name_of_ofName? hid
      simpa [Expr.namesChained, Expr.chainArgs?] using hn
    | _ => simp [checkExpr] at hc
  | member p value attr =>
    simp only [checkExpr, Checked.issues_typed, Checked.issues_bind, List.append_eq_nil_iff] at hc
    exact isTold_typeOfMember hr (hp (.record, value) (by simp [Expr.parts])) hc.2
  | subscript p value index =>
    cases hi : refusedIndex? index with
    | some m => simp [checkExpr, hi] at hc
    | none =>
      simp only [checkExpr, hi, Checked.issues_typed, Checked.issues_bind,
        List.append_eq_nil_iff] at hc
      simp only [checkExpr, hi, Checked.value_typed, Checked.value_bind]
      exact isTold_typeOfElement (hp (.array, value) (by simp [Expr.parts])) hc.2.2
  | ifExp p test body orelse =>
    exact isTold_typeOfChoice (hp (.branch, body) (by simp [Expr.parts]))
      (hp (.branch, orelse) (by simp [Expr.parts]))
  | name p id =>
    exact isTold_typeOfName hr hs (by simpa [checkExpr] using hc)
  | const p value => cases value <;> exact .of_cls rfl
  | tuple | list | slice => simp [checkExpr] at hc

/-- The type of an accepted expression is told if the calls of `pnext` that are visited with it have
names. -/
theorem isTold_of_clean {e : Expr} (hr : s.registry.IsNamed) (hf : IsFree scope)
    (hs : ∀ b ∈ scope, b.type.IsTold) (hT : ∀ x ∈ T, x.1.namesChained = true)
    (hc : (checkExpr s scope e).issues = []) (ht : e.parts = [] ∨ (checkExpr s scope e).types ⊆ T) :
    (checkExpr s scope e).value.IsTold := by
  apply isTold_of_parts hr hs hc
  · rcases ht with hnil | ht
    · exact namesChained_of_parts_eq_nil hc hnil
    · exact hT _ (ht (mem_types_self s scope e))
  · intro q hq
    have := Expr.sizeOf_lt_of_mem_parts hq
    rcases ht with hnil | ht
    · simp [hnil] at hq
    · have hw := acceptsWithin_parts hf hc ht q hq
      exact isTold_of_clean hr hf hs hT hw.clean hw.within
termination_by sizeOf e

/-- The type of a call of `pnext` that is not given a name is unknown or that of a nameless
structure. -/
theorem not_isDefined_typeOfCall {args : List Expr}
    (hlen : args.length = Predicate.pnext.signature.args.length)
    (hn : Expr.areName args = false) : ¬(typeOfCall .pnext args).IsDefined := by
  intro hd
  obtain ⟨arg, rfl⟩ := List.length_eq_one_iff.1 hlen
  cases arg with
  | name p id =>
    obtain rfl : id = "" := by simpa [Expr.areName] using hn
    exact hd.named rfl rfl
  | _ =>
    have hu : Ty.unknown.isUnknown = false := hd.known
    exact absurd hu (by decide)

private theorem not_isDefined_typeOfMethod {args : List Expr} {t : Ty}
    (hlen : args.length = Method.pnext.signature.args.length)
    (hn : Expr.areName args = false) : ¬(typeOfMethod .pnext args t).IsDefined := by
  intro hd
  obtain ⟨arg, rfl⟩ := List.length_eq_one_iff.1 hlen
  cases arg with
  | name p id =>
    obtain rfl : id = "" := by simpa [Expr.areName] using hn
    have he : typeOfMethod .pnext [.name p ""] t = .struct "" := by
      simp [typeOfMethod, Method.returnedStruct?, Expr.name?]
    rw [he] at hd
    exact hd.named rfl rfl
  | _ => exact hd.named rfl rfl

/-- A call of `pnext` without a name has a type that says nothing. -/
theorem not_isDefined_of_namesChained {s : Subject} {scope : Scope} {e : Expr}
    (hc : (checkExpr s scope e).issues = []) (hn : e.namesChained = false) :
    ¬(checkExpr s scope e).value.IsDefined := by
  cases e with
  | call p func args =>
    cases func with
    | name q id =>
      by_cases hpnext : id = Predicate.pnext.name
      · subst hpnext
        obtain ⟨pred, hid, hlen, -⟩ := clean_call_name hc
        obtain rfl : pred = .pnext := by simpa [Predicate.ofName?_name] using hid.symm
        have hargs : Expr.areName args = false := by
          simpa [Expr.namesChained, Expr.chainArgs?] using hn
        rw [value_call_name hid hlen]
        exact not_isDefined_typeOfCall hlen hargs
      · simp [Expr.namesChained, Expr.chainArgs?, hpnext] at hn
    | member q receiver attr =>
      by_cases hpnext : attr = Method.pnext.name
      · subst hpnext
        obtain ⟨m, hid, -, -, hlen, -⟩ := clean_call_member hc
        obtain rfl : m = .pnext := by simpa [Method.ofName?_name] using hid.symm
        have hargs : Expr.areName args = false := by
          simpa [Expr.namesChained, Expr.chainArgs?] using hn
        rw [value_call_member hid hlen]
        exact not_isDefined_typeOfMethod hlen hargs
      · simp [Expr.namesChained, Expr.chainArgs?, hpnext] at hn
    | _ => simp [Expr.namesChained, Expr.chainArgs?] at hn
  | _ => simp [Expr.namesChained, Expr.chainArgs?] at hn

end Types

end Verification

namespace Block

open Verification

/-- The types of an accepted statement are all defined exactly when each call of `pnext` has the
name of a structure. -/
theorem types_isDefined_iff {s : Subject} {b : Block} (hr : s.registry.IsNamed)
    (h : (b.verify s).isOk = true) :
    (∀ x ∈ (b.verify s).types, x.2.IsDefined) ↔
      ∀ x ∈ (b.verify s).types, x.1.namesChained = true := by
  constructor
  · intro hd x hx
    have hfree : Binds s (b.verify s).types (fun _ => True)
        fun b => isPredicateName b.name = false := ⟨fun _ hb => hb, fun _ _ _ hb _ _ => hb⟩
    obtain ⟨scope, -, hc, hv, -⟩ := (visits_of_isOk h hfree fun _ _ => trivial).1 x hx
    cases hn : x.1.namesChained with
    | true => rfl
    | false => exact absurd (hv ▸ hd x hx) (not_isDefined_of_namesChained hc hn)
  · intro hT x hx
    have hold : Binds s (b.verify s).types (fun _ => True)
        fun b => isPredicateName b.name = false ∧ b.type.IsTold := by
      refine ⟨fun _ hb => hb.1, fun b y _ hb hy ht => ⟨hb, ?_⟩⟩
      obtain ⟨scope, hs, hc, hv, hsub⟩ := hy
      have htold := isTold_of_clean hr (fun b hb => (hs b hb).1) (fun b hb => (hs b hb).2) hT hc
        (.inr hsub)
      rw [hv] at htold
      rcases ht with ht | ht
      · exact ht ▸ htold
      · exact ht ▸ htold.indexed
    obtain ⟨scope, hs, hc, hv, hsub⟩ := (visits_of_isOk h hold fun _ _ => trivial).1 x hx
    rw [← hv]
    exact (isTold_of_clean hr (fun b hb => (hs b hb).1) (fun b hb => (hs b hb).2) hT hc
      (.inr hsub)).isDefined

/-- A command of an API with two structures. -/
private def chainedCommand : Subject where
  registry := { entities := [⟨"vkCmdDraw", .command, [], none, none, []⟩,
    ⟨"VkDrawInfo", .struct, [⟨"count", "uint32_t", 0, none, none⟩], none, none, []⟩,
    ⟨"VkDrawFlags", .struct, [], none, none, []⟩] }
  api := "vkCmdDraw"

private theorem isNamed_chainedCommand : chainedCommand.registry.IsNamed := by
  constructor <;> decide

/-- The requirement that a member of a structure of the chain is one. -/
private def requireMember (struct : Expr) (member : String) : Block :=
  [.expr .none (.call .none (.name .none "require")
    [.compare .none (.member .none (.call .none (.name .none "pnext") [struct]) member) [.eq]
      [.const .none (.int 1)]])]

/-- The types are defined where a structure of the chain is named. -/
theorem types_isDefined_requireMember :
    let b := requireMember (.name .none "VkDrawInfo") "count"
    chainedCommand.registry.IsNamed ∧ (b.verify chainedCommand).isOk = true ∧
      ∀ x ∈ (b.verify chainedCommand).types, x.2.IsDefined := by
  have hok : (verify chainedCommand
      (requireMember (.name .none "VkDrawInfo") "count")).isOk = true := by decide +kernel
  refine ⟨isNamed_chainedCommand, hok, ?_⟩
  exact (types_isDefined_iff isNamed_chainedCommand hok).2 (by decide +kernel)

/-- One of two structures. -/
private def chosenStruct : Expr :=
  .ifExp .none
    (.call .none (.name .none "is_version") [.const .none (.int 1), .const .none (.int 0)])
    (.name .none "VkDrawInfo") (.name .none "VkDrawFlags")

/-- Where a structure of the chain is chosen, its type is unknown, and a member that neither
structure has is accepted. -/
theorem types_unknown_chosenStruct :
    let b := requireMember chosenStruct "nothing"
    chainedCommand.registry.IsNamed ∧ (b.verify chainedCommand).isOk = true ∧
      ∃ x ∈ (b.verify chainedCommand).types, ¬x.2.IsDefined := by
  refine ⟨isNamed_chainedCommand, by decide +kernel,
    (.call .none (.name .none "pnext") [chosenStruct], .unknown), by decide +kernel, fun hd => ?_⟩
  exact absurd hd.known (by decide)

end Block
end ValidUsage
