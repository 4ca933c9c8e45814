import ValidUsage.Proofs.FoldStmt
import ValidUsage.Proofs.PruneMeaning

/-!
# Stripping for a build keeps what a statement means

A statement and what a build leaves of it have the same unmet requirements in every interpretation
that fits the build, as long as the statement is closed and its names are distinct from those that
folding puts in. `plain` is an interpretation that fits: names stand for themselves, and predicates
have the values that the build gives them.
-/

namespace ValidUsage

namespace Block

variable {α : Type} {I : Interpretation α} {b : Build} {block : Block}

/-- What a build leaves of a statement requires nothing but what folding and pruning leave. -/
theorem unmet_strip_of_fold {vs : List (Value α)} (h : (block.fold b).stmts.unmet I = some vs) :
    (block.strip b).unmet I = some vs := by
  have hleft := unmet_withoutDeadCode h
  rw [strip, Stripped.unmet]
  cases hblock : (block.fold b).stmts.withoutDeadCode with
  | none =>
    rw [hblock] at hleft
    exact hleft
  | some c =>
    rw [hblock] at hleft
    exact hleft

/-- Stripping keeps what a statement requires: where a closed statement with distinct names has a
meaning, what a build leaves of it has the same unmet requirements. -/
theorem unmet_strip {vs : List (Value α)} (hI : I.Fits b) (hclosed : block.Closed b)
    (hdistinct : block.Distinct b) (h : block.unmet I = some vs) :
    (block.strip b).unmet I = some vs :=
  unmet_strip_of_fold (unmet_fold hI hclosed hdistinct h)

end Block

namespace Interpretation

/-- The value of a predicate that is called by its name, as far as a build decides it. -/
def answer (b : Build) : Predicate → List (Value Constant) → Option (Value Constant)
  | .isVersion, [.other (.int major), .other (.int minor)] =>
    some (.bool (b.config.hasVersion major minor))
  | .isExtEnabled, [.other (.str ext)] => some (.bool (b.config.hasExtension ext))
  | .isFeatureEnabled, [.other (.str f)] =>
    some (.bool (b.availability.featureDefined b.config f ||
      (b.config.legacyAlias? f).any b.config.hasExtension))
  | .hasPnext, [.other (.str s)] => some (.bool (b.availability.structDefined b.config s))
  | _, _ => none

/-- Names and literals stand for themselves, and predicates that are called by their name have the
values that a build gives them. A loop visits its array as a whole. -/
def plain (b : Build) : Interpretation Constant where
  name id := if id = Predicate.require.name then none else some (.other (.str id))
  const c := some (.other c)
  unary _ _ := none
  binary _ _ _ := none
  compare _ _ := none
  member _ _ := none
  element _ _ := none
  call f vs := match f with
    | .other (.str id) => (Predicate.ofName? id).bind fun q => answer b q vs
    | _ => none
  elements v := some [v]

/-- A name of the plain interpretation stands for itself. -/
theorem plain_name_eq_some {b : Build} {id : String} {v : Value Constant} :
    (plain b).name id = some v ↔ id ≠ Predicate.require.name ∧ v = .other (.str id) := by
  simp only [plain]
  split
  · next h => simp [h]
  · next h => simp [h, eq_comm]

/-- A predicate of the plain interpretation has the value that the build gives it. -/
theorem plain_asks (b : Build) {q : Predicate} (hq : q ≠ .require) (vs : List (Value Constant)) :
    (plain b).asks q vs = answer b q vs := by
  have hname : (plain b).name q.name = some (.other (.str q.name)) := by
    refine plain_name_eq_some.mpr ⟨?_, rfl⟩
    cases q with
    | require => exact absurd rfl hq
    | _ => decide
  rw [asks, hname, Option.bind_some]
  simp only [plain, Predicate.ofName?_name, Option.bind_some]

/-- The plain interpretation fits its build. -/
theorem fits_plain {b : Build}
    (h : ∀ f ext, b.config.legacyAlias? f = some ext → ext ≠ Predicate.require.name) :
    (plain b).Fits b where
  require := rfl
  version {major minor v w r} hv hw hr := by
    obtain rfl := Option.some.inj hv
    obtain rfl := Option.some.inj hw
    rw [plain_asks b (by decide)] at hr
    exact (Option.some.inj hr).symm
  extension {ext v r} hext hv hr := by
    obtain ⟨_, rfl⟩ := plain_name_eq_some.mp hv
    rw [plain_asks b (by decide)] at hr
    rw [← hext]
    exact (Option.some.inj hr).symm
  feature {f v r} hf hnone hv hr := by
    obtain ⟨_, rfl⟩ := plain_name_eq_some.mp hv
    rw [plain_asks b (by decide), answer, hf, hnone] at hr
    exact (Option.some.inj hr).symm
  legacy {f ext v r} hf halias hv hr := by
    obtain ⟨_, rfl⟩ := plain_name_eq_some.mp hv
    rw [plain_asks b (by decide), answer, hf, halias] at hr
    refine ⟨.other (.str ext), plain_name_eq_some.mpr ⟨h f ext halias, rfl⟩, ?_⟩
    rw [plain_asks b (by decide), answer, ← hr]
    rfl
  chain {s v r} hs hv hr := by
    obtain ⟨_, rfl⟩ := plain_name_eq_some.mp hv
    rw [plain_asks b (by decide)] at hr
    rw [← hs]
    exact (Option.some.inj hr).symm
  chainOf _ _ hr := by simp [asksOf, plain] at hr
  bit _ _ hr := by simp [asksOf, plain] at hr
  value {x u v w r} _ _ hu huvw := by
    obtain ⟨_, rfl⟩ := plain_name_eq_some.mp hu
    rcases huvw with rfl | rfl
    · exact ⟨fun hr => by simp [comparison, plain] at hr,
        fun hr => by simp [comparison, plain] at hr⟩
    · cases v with
      | bool c =>
        exact ⟨fun hr => by simp [comparison, plain] at hr,
          fun hr => by simp [comparison, plain] at hr⟩
      | other a =>
        exact ⟨fun hr => by simp [comparison, plain] at hr,
          fun hr => by simp [comparison, plain] at hr⟩

end Interpretation

/-! ## Small statements -/

namespace Block

/-- A build with one version, one extension and one feature that the extension stands for. -/
def smallBuild : Build where
  config := ⟨["VK_VERSION_1_0"], ["VK_KHR_new"], ⟨[("old", "VK_KHR_new")]⟩⟩
  availability := ⟨.empty, .empty, .empty⟩

/-- The plain interpretation fits the small build. -/
theorem fits_smallBuild : (Interpretation.plain smallBuild).Fits smallBuild := by
  refine Interpretation.fits_plain ?_
  intro f ext h
  simp only [smallBuild, BuildConfig.legacyAlias?, Table.get?, Option.map_eq_some_iff] at h
  obtain ⟨e, he, rfl⟩ := h
  obtain rfl := List.mem_singleton.mp (List.mem_of_find?_eq_some he)
  decide

/-- A call by name. -/
private def callOf (id : String) (args : List Expr) : Expr := .call .none (.name .none id) args

/-- The condition on the first version. -/
private def firstVersion : Expr :=
  callOf "is_version" [.const .none (.int 1), .const .none (.int 0)]

/-- A requirement. -/
private def requireOf (e : Expr) : Stmt := .expr .none (callOf "require" [e])

/-- Something is required of all elements if the build has the first version, and an extension is
required otherwise. -/
private def loopOfVersion : Block :=
  [.assign .none [.name .none "v"] firstVersion,
   .ifElse .none (.name .none "v")
     [.forEach .none (.name .none "x") (.name .none "pRegions") [requireOf (.name .none "x")] []]
     [requireOf (callOf "is_ext_enabled" [.name .none "VK_KHR_new"])]]

/-- A loop under a condition that the build decides requires the same as before. -/
theorem unmet_strip_loopOfVersion :
    loopOfVersion.unmet (.plain smallBuild) = some [.other (.str "pRegions")] ∧
    (loopOfVersion.strip smallBuild).unmet (.plain smallBuild) =
      some [.other (.str "pRegions")] := by
  have h : loopOfVersion.unmet (.plain smallBuild) = some [.other (.str "pRegions")] := rfl
  refine ⟨h, unmet_strip fits_smallBuild ⟨by decide, by decide⟩ ⟨by decide, by decide, ?_⟩ h⟩
  intro feature ext halias
  simp only [smallBuild, BuildConfig.legacyAlias?, Table.get?, Option.map_eq_some_iff] at halias
  obtain ⟨e, he, rfl⟩ := halias
  obtain rfl := List.mem_singleton.mp (List.mem_of_find?_eq_some he)
  decide

/-- A loop that binds the name of an assignment again. -/
private def rebindingLoop : Block :=
  [.assign .none [.name .none "v"] firstVersion,
   .forEach .none (.name .none "v") (.name .none "pRegions") [requireOf (.name .none "v")] []]

/-- A name of the statement's own that the condition on an extension needs. -/
private def ownPredicate : Block :=
  [.assign .none [.name .none "is_ext_enabled"] firstVersion,
   requireOf (callOf "is_feature_enabled" [.name .none "old"])]

/-- A closed statement may lose a requirement when a loop binds the name of an assignment again, and
its meaning when a name of its own is that of the condition on an extension. -/
theorem unmet_strip_ne :
    (Interpretation.plain smallBuild).Fits smallBuild ∧
    (rebindingLoop.Closed smallBuild ∧
      rebindingLoop.unmet (.plain smallBuild) = some [.other (.str "pRegions")] ∧
      (rebindingLoop.strip smallBuild).unmet (.plain smallBuild) = some []) ∧
    (ownPredicate.Closed smallBuild ∧
      ownPredicate.unmet (.plain smallBuild) = some [] ∧
      (ownPredicate.strip smallBuild).unmet (.plain smallBuild) = none) := by
  refine ⟨fits_smallBuild, ⟨⟨by decide, by decide⟩, rfl, unmet_strip_of_fold rfl⟩,
    ⟨⟨by decide, by decide⟩, rfl, ?_⟩⟩
  have hprune : (ownPredicate.fold smallBuild).stmts.prune =
      ⟨some (ownPredicate.fold smallBuild).stmts, false⟩ := rfl
  rw [strip, Stripped.unmet]
  simp only [withoutDeadCode_of_prune hprune]
  rfl

end Block
end ValidUsage
