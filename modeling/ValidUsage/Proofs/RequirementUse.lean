import ValidUsage.Proofs.Scope
import ValidUsage.Proofs.WellScoped

/-!
# Requirements and references in accepted statements

Stripping knows a requirement by its place, as a statement of its own, and what a predicate refers
to by its spelling. Acceptance goes by types. `require` gives a value of type `void`, which passes
wherever types are only compared with one another; a condition, an iterator, an operand or an array
has to be of a certain class and so is never a requirement. Likewise a name that is referred to is
of the class that the predicate asks for, but it may be a name of the statement's own.
-/

namespace ValidUsage

open Verification

/-- Whether acceptance lets a requirement stand in a role, whatever stands beside it. -/
def Role.admitsRequirement : Role → Bool
  | statement | assigned | compared | argument | receiver | branch | text => true
  | condition | operand | iterator | callee | record | array | index | element => false

namespace Expr

/-- The types that what is called is declared with, if it is a predicate. -/
def declared? : Expr → Option (List Ty)
  | name _ id => (Predicate.ofName? id).map (·.signature.args)
  | member _ _ attr => (Method.ofName? attr).map (·.signature.args)
  | _ => none

end Expr

/-- A class that a predicate refers to by name accepts itself, what has no class, and, if it is one
of flags, all flags. -/
def TyClass.covers (declared given : TyClass) : Bool :=
  given == declared || given == .void || Registry.isFlags declared && Registry.isFlags given

namespace Verification

variable {s : Subject} {scope : Scope}

/-- The type of a requirement. -/
theorem value_requirement {e : Expr} (hr : IsRequirement e)
    (hc : (checkExpr s scope e).issues = []) : (checkExpr s scope e).value = .void := by
  cases e with
  | call p func args =>
    cases func with
    | name q id =>
      obtain rfl : id = Predicate.require.name := Option.some.inj hr
      obtain ⟨pred, hid, hlen, -⟩ := clean_call_name hc
      obtain rfl : pred = .require := by simpa [Predicate.ofName?_name] using hid.symm
      simp [checkExpr, hid, hlen, typeOfCall, Predicate.signature]
    | _ => simp [IsRequirement, Expr.callName?, Expr.name?] at hr
  | _ => simp [IsRequirement, Expr.callName?] at hr

/-- A value that is accepted where a class is declared is of the class, or passes for it. -/
theorem covers_of_accepts {declared given : Ty} (hd : declared.cls ≠ .void)
    (h : s.registry.accepts declared given = true) : declared.cls.covers given.cls = true := by
  simp only [Registry.accepts, Registry.typesMatch, Registry.basesMatch, Bool.or_eq_true,
    beq_iff_eq, hd, false_or, Bool.and_eq_true] at h
  rcases h.2 with hv | h
  · simp [TyClass.covers, hv]
  · split at h
    · rename_i hflags
      simpa [TyClass.covers] using .inr hflags
    · split at h
      · exact absurd h nofun
      · rename_i heq
        simp [TyClass.covers, show declared.cls = given.cls by simpa using heq]

private theorem covers_of_isUnknown {c : TyClass} {t : Ty} (h : t.isUnknown = true) :
    c.covers t.cls = true := by
  simp only [Ty.isUnknown, Bool.and_eq_true, beq_iff_eq] at h
  simp [TyClass.covers, h.1.1]

/-- What refers to its arguments by name is declared with one class of names or flags. -/
theorem declared_of_refersByName {func : Expr} {ds : List Ty} (hf : func.refersByName = true)
    (hd : func.declared? = some ds) : ∃ d, ds = [d] ∧ d.cls ≠ .void ∧ d.cls ≠ .bool := by
  cases func with
  | name p id =>
    obtain ⟨q, hq, rfl⟩ := Option.map_eq_some_iff.1 hd
    obtain rfl := Predicate.name_of_ofName? hq
    cases q <;> first
      | exact ⟨_, rfl, by decide, by decide⟩
      | simp [Expr.refersByName, Predicate.name] at hf
  | member p receiver attr =>
    obtain ⟨m, hm, rfl⟩ := Option.map_eq_some_iff.1 hd
    obtain rfl := Method.name_of_ofName? hm
    cases m <;> first
      | exact ⟨_, rfl, by decide, by decide⟩
      | simp [Expr.refersByName, Method.name] at hf
  | _ => simp [Expr.declared?] at hd

/-- The type of a name that the statement does not bind. -/
theorem value_name {p : Pos} {id : String} (hb : scope.binds id = false)
    (hc : (checkExpr s scope (.name p id)).issues = []) :
    s.nameType? id = some (checkExpr s scope (.name p id)).value := by
  have hnone : scope.find? id = none := by simpa [Scope.binds] using hb
  cases hp : isPredicateName id with
  | true => simp [checkExpr, typeOfName, hp] at hc
  | false =>
    cases hn : s.nameType? id with
    | none => simp [checkExpr, typeOfName, hp, hnone, hn] at hc
    | some t => simp [checkExpr, typeOfName, hp, hnone, hn]

/-- The arguments of an accepted predicate are of the types that it is declared with, or of unknown
type; what is not evaluated aside. -/
theorem accepted_arguments {p : Pos} {func : Expr} {args : List Expr}
    (hf : func.refersByName = true)
    (hc : (checkExpr s scope (.call p func args)).issues = []) :
    ∃ d, func.declared? = some [d] ∧ d.cls ≠ .void ∧ d.cls ≠ .bool ∧ ∀ e ∈ args,
      (checkExpr s scope e).issues = [] ∧ ((checkExpr s scope e).value.isUnknown = true ∨
        s.registry.accepts d (checkExpr s scope e).value = true) := by
  obtain ⟨ds, name, hd, hlen, hargs⟩ : ∃ ds name, func.declared? = some ds ∧
      args.length = ds.length ∧ (checkArguments s scope name ds args).issues = [] := by
    cases func with
    | name q id =>
      obtain ⟨pred, hid, hlen, -, hargs⟩ := clean_call_name hc
      obtain rfl := Predicate.name_of_ofName? hid
      refine ⟨_, _, congrArg (Option.map _) hid, hlen, (hargs ?_ ?_).1⟩
      · rintro rfl
        simp [Expr.refersByName, Predicate.name] at hf
      · rintro rfl
        simp [Expr.refersByName, Predicate.name] at hf
    | member q receiver attr =>
      obtain ⟨m, hid, -, -, hlen, hargs, -⟩ := clean_call_member hc
      exact ⟨_, _, congrArg (Option.map _) hid, hlen, hargs⟩
    | _ => exact absurd hf nofun
  obtain ⟨d, rfl, hne, hbool⟩ := declared_of_refersByName hf hd
  refine ⟨d, hd, hne, hbool, fun e he => ?_⟩
  obtain ⟨hec, d', hd', hj⟩ := clean_of_checkArguments hargs hlen he
  obtain rfl := List.mem_singleton.1 hd'
  exact ⟨hec, hj⟩

end Verification

namespace Block

/-- Where an accepted statement can have requirements, and what its predicates can refer to. -/
structure Restrained (s : Subject) (b : Block) : Prop where
  /-- A requirement stands where any type is accepted, or beside an expression of unknown type. -/
  requirements : ∀ u ∈ b.uses, u.role ≠ .text → IsRequirement u.expr →
    u.role.admitsRequirement = true ∨
      (u.role = .operand ∨ u.role = .index) ∧ ∃ x ∈ (b.verify s).types, x.2.isUnknown = true
  /-- A name that is referred to is visible, or one of a class that the predicate is declared with.
  -/
  references : ∀ u ∈ b.uses, u.role ≠ .text → ∀ p func args, u.expr = .call p func args →
    func.refersByName = true → ∀ q id, .name q id ∈ args →
      u.visible.binds id = true ∨ ∃ d t, func.declared? = some [d] ∧ s.nameType? id = some t ∧
        d.cls.covers t.cls = true

/-- In an accepted statement requirements and references are restrained. -/
theorem restrained_of_isOk {s : Subject} {b : Block} (h : (b.verify s).isOk = true) :
    b.Restrained s := by
  obtain ⟨hf, -⟩ := finds_of_isOk h
  constructor
  · intro u hu hn hr
    obtain ⟨scope, -, hc, hs⟩ := hf.accepts u hu hn
    rw [value_requirement hr hc] at hs
    cases hrole : u.role <;> simp_all [Role.admitsRequirement, Role.Suits]
  · intro u hu hn p func args he hfunc q id hid
    obtain ⟨scope, ha, hc, -⟩ := hf.accepts u hu hn
    simp only [he] at hc
    obtain ⟨d, hd, hne, -, hargs⟩ := accepted_arguments hfunc hc
    obtain ⟨hec, hj⟩ := hargs _ hid
    cases hb : u.visible.binds id with
    | true => exact .inl rfl
    | false =>
      refine .inr ⟨d, _, hd, value_name (ha.binds id ▸ hb) hec, ?_⟩
      rcases hj with hj | hj
      · exact covers_of_isUnknown hj
      · exact covers_of_accepts hne hj

/-- A command of an API that has an extension. -/
private def extendedCommand : Subject where
  registry := { entities := [⟨"vkCmdDraw", .command, [], none, none, []⟩],
                interfaces := [⟨"VK_KHR_surface", .extension, []⟩] }
  api := "vkCmdDraw"

/-- The requirement of something. -/
private def requireThat (e : Expr) : Expr := .call .none (.name .none "require") [e]

/-- The condition on an extension. -/
private def isEnabled (extension : String) : Expr :=
  .call .none (.name .none "is_ext_enabled") [.name .none extension]

/-- A requirement of an extension by its own name is restrained. -/
theorem restrained_isEnabled :
    let b : Block := [.expr .none (requireThat (isEnabled "VK_KHR_surface"))]
    (b.verify extendedCommand).isOk = true ∧ b.Restrained extendedCommand := by
  have hok : (Block.verify extendedCommand
      [.expr .none (requireThat (isEnabled "VK_KHR_surface"))]).isOk = true := by decide +kernel
  exact ⟨hok, restrained_of_isOk hok⟩

/-- A requirement whose result gets a name. -/
private def namedRequirement : Block :=
  [.assign .none [.name .none "x"] (requireThat (.const .none (.bool true)))]

/-- A condition on an extension by a name of the statement's own. -/
private def namedExtension : Block :=
  [.assign .none [.name .none "x"] (.name .none "VK_KHR_surface"),
   .expr .none (requireThat (isEnabled "x"))]

/-- Two accepted statements: in one the result of a requirement is assigned, in the other a
predicate refers to a name that the statement binds. -/
theorem accepted_namedRequirement :
    ((namedRequirement.verify extendedCommand).isOk = true ∧
      ∃ u ∈ namedRequirement.uses, u.role = .assigned ∧ IsRequirement u.expr) ∧
    ((namedExtension.verify extendedCommand).isOk = true ∧
      ∃ u ∈ namedExtension.uses, u.expr = isEnabled "x" ∧ u.visible.binds "x" = true) := by
  refine ⟨⟨by decide +kernel, ⟨[], .assigned, requireThat (.const .none (.bool true))⟩, ?_, rfl,
    rfl⟩,
    by decide +kernel, ⟨[⟨"x", false⟩], .argument, isEnabled "x"⟩, ?_, rfl, rfl⟩
  · decide +kernel
  · decide +kernel

end Block
end ValidUsage
