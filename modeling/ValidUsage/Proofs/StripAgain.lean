import ValidUsage.Proofs.Weight
import ValidUsage.Verification.Basic

/-!
# Stripping twice

Stripping what a build leaves of a statement, for the same build, changes nothing exactly if nothing
is left that the build decides. A choice that is decided can put a predicate, the name of an
enumeration value or a number where folding has looked before; then more is decided the second time.
-/

namespace ValidUsage
namespace Block

private theorem isSame_refl (b : Block) : b.isSame b := by
  rw [isSame, beq_iff_eq]

/-- Stripping is idempotent on a statement exactly if what a build leaves of it holds no call, no
comparison and no requirement that the build decides. -/
theorem strip_again_iff {b c : Block} {build : Build} (h : (b.strip build).block = some c) :
    (c.strip build).block.any (·.isSame c) ↔ Stmt.isSettledBlock build c := by
  constructor
  · intro hagain
    cases hsettled : Stmt.isSettledBlock build c with
    | true => rfl
    | false =>
      cases hd : (c.strip build).block with
      | none =>
        rw [hd] at hagain
        cases hagain
      | some d =>
        rw [hd] at hagain
        have hlighter := weight_strip_lt h hsettled hd
        have hsame := Stmt.weightBlock_of_isSame hagain
        omega
  · intro hsettled
    rw [strip_of_isSettled h hsettled]
    exact isSame_refl c

/-- A build with the first version of an API that has nothing else. -/
def firstBuild : Build := ⟨⟨["VK_VERSION_1_0"], [], .empty⟩, .ofRegistry { entities := [] }⟩

/-- The requirement of a version. -/
private def requireVersion (major : Expr) : Block :=
  [.expr .none (.call .none (.name .none "require")
    [.call .none (.name .none "is_version") [major, .const .none (.int 0)]])]

/-- A condition on the first version. -/
private def isFirstVersion : Expr :=
  .call .none (.name .none "is_version") [.const .none (.int 1), .const .none (.int 0)]

/-- The requirement of a version whose number the version decides. -/
private def requireChosenVersion : Block :=
  requireVersion (.ifExp .none isFirstVersion (.const .none (.int 1)) (.const .none (.int 2)))

/-- Stripping leaves the requirement in a branch that the build takes. Stripping again keeps it, for
the build does not know the version that it is about. -/
theorem strip_again_of_member :
    let kept : Block := requireVersion (.member .none (.name .none "s") "major")
    (Block.strip [.ifElse .none isFirstVersion kept [.pass .none]] firstBuild).block = some kept ∧
      (kept.strip firstBuild).block.any (·.isSame kept) := by
  intro kept
  have h : (Block.strip [.ifElse .none isFirstVersion kept [.pass .none]] firstBuild).block =
      some kept := withoutDeadCode_of_prune rfl
  exact ⟨h, (strip_again_iff h).mpr rfl⟩

/-- An accepted statement of which stripping leaves a requirement, and stripping again leaves
nothing. -/
theorem strip_again_eq_none :
    (requireChosenVersion.verify ⟨{ entities := [] }, "vkCmdCopyBuffer"⟩).isOk ∧
    (requireChosenVersion.strip firstBuild).block = some (requireVersion (.const .none (.int 1))) ∧
    ((requireVersion (.const .none (.int 1))).strip firstBuild).block = none := by
  refine ⟨rfl, withoutDeadCode_of_prune rfl, ?_⟩
  have hprune : ((requireVersion (.const .none (.int 1))).fold firstBuild).stmts.prune =
      ⟨none, false⟩ := rfl
  rw [strip]
  simp only
  rw [withoutDeadCode, hprune]

end Block
end ValidUsage
