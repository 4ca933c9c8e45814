import ValidUsage.Session.Basic

/-!
# Locations of diagnostics

What a build of a text reports is located in the document at the positions of `Vu.located`. Where
the line numbers of all of them have 64 bits, it does not matter what becomes of sums that are too
large.
-/

namespace ValidUsage

namespace Vu

variable {s : List Char} {origin : Origin} {api : String} {macros : Table String} {r : Registry}
  {b : Build}

/-- What a build of a text reports. -/
def reports : Except VuError BuildOutcome → List Diagnostic
  | .ok x => x.warnings
  | .error e => e.diagnostics

/-- The warnings about a statement in a build are located at its dead code, which has the place of
the whole statement, and at its requirements of `False`. -/
private theorem locations_warnings (c : Block) (build : Build) (origin : Origin) :
    ((c.deadCodeWarning? origin).toList ++ (c.strip build).warnings origin).map (·.location) =
      ((if c.hasDeadCode then [(⟨1, 1⟩ : Pos)] else []) ++
        (c.strip build).falsified.map Stmt.reported).map (some ∘ origin.locate) := by
  rw [List.map_append, List.map_append, Stripped.warnings, List.map_map, List.map_map]
  congr 1
  unfold Block.deadCodeWarning?
  split <;> rfl

/-- What a build reports of a statement whose macros are replaced. -/
private theorem locations_accepted {v : Vu} {name : String}
    (hapi : Expansion.resolveApi? macros api = some name) {y : Except VuError BuildOutcome}
    (hy : (do
      let checked ← v.accept api macros r
      let stripped := v.expanded.strip b
      let warnings := checked.warnings ++ stripped.warnings v.origin
      match stripped.block with
      | none => return .eliminated warnings
      | some block =>
        let output ← (block.render ⟨r, checked.api⟩ .output).mapError VuError.internal
        return .built output (Prose.render ⟨r, checked.api⟩ block) warnings) = y)
    (hi : ∀ e, y ≠ .error (.internal e)) :
    (reports y).map (·.location) =
      (if (v.expanded.verify ⟨r, name⟩).isOk then
        (if v.expanded.hasDeadCode then [⟨1, 1⟩] else []) ++
          (v.expanded.strip b).falsified.map Stmt.reported
      else (v.expanded.verify ⟨r, name⟩).issues.map (·.pos)).map (some ∘ v.origin.locate) := by
  unfold accept resolveApi verify at hy
  rw [hapi] at hy
  cases hok : (v.expanded.verify ⟨r, name⟩).isOk with
  | false =>
    simp only [hok, bind, Except.bind, if_false, Bool.false_eq_true] at hy
    subst hy
    simp [reports, VuError.diagnostics, Verification.diagnostics, Issue.toDiagnostic]
  | true =>
    simp only [hok, bind, Except.bind, pure, Except.pure, if_true] at hy
    rw [if_pos rfl, ← locations_warnings]
    cases hblock : (v.expanded.strip b).block with
    | none =>
      rw [hblock] at hy
      subst hy
      rfl
    | some block =>
      rw [hblock] at hy
      dsimp only at hy
      cases hrender : block.render ⟨r, name⟩ .output with
      | error e =>
        rw [hrender] at hy
        exact absurd hy.symm (hi e)
      | ok output =>
        rw [hrender] at hy
        subst hy
        rfl

/-- Whatever a build of a text reports is located at the positions that are located on its way, one
after the other. Only that a rendering is not read as itself has no location. -/
theorem locations_build {y : Except VuError BuildOutcome}
    (hy : ((ofText s origin).bind fun v => v.build api macros r b) = y)
    (hi : ∀ e, y ≠ .error (.internal e)) :
    (reports y).map (·.location) = (located s api macros r b).map (some ∘ origin.locate) := by
  unfold located
  cases hc : parse s with
  | error e =>
    rw [ofText, hc] at hy
    subst hy
    rfl
  | ok c =>
    rw [ofText_eq_ok_iff.2 ⟨c, hc, rfl⟩] at hy
    simp only [Except.bind] at hy
    unfold Vu.build applyMacros at hy
    cases hx : expand macros s with
    | error e =>
      simp only [hx] at hy
      subst hy
      cases e <;> rfl
    | ok x =>
      simp only [hx] at hy ⊢
      cases hd : parse x.text with
      | error e =>
        rw [hd] at hy
        subst hy
        rfl
      | ok d =>
        rw [hd] at hy
        cases hapi : Expansion.resolveApi? macros api with
        | none =>
          simp only [accept, resolveApi, hapi, bind, Except.bind] at hy
          subst hy
          rfl
        | some name => exact locations_accepted hapi hy hi

end Vu

namespace Session.StatementRequest

/-- The line of a statement that a process has without breaking off is the one it has anyway. -/
private theorem start_wraps {q : StatementRequest} {line : Nat} (h : q.start .breaks = .ok line) :
    q.start .wraps = .ok line := by
  unfold start at h ⊢
  split at h
  next htag =>
    rw [if_pos htag]
    have hlt : q.line + 1 < limit64 :=
      Overflow.isOk_add_iff.1 (by rw [h]; rfl) rfl
    rw [Overflow.add_of_lt hlt] at h ⊢
    exact h
  next htag =>
    rw [if_neg htag]
    exact h

/-- What a build makes of a statement, unless the process breaks off. -/
theorem build_eq_ok {x : StatementRequest} {o : Overflow} {r : Registry}
    {b : Build} {y : Except VuError BuildOutcome} (h : x.build o r b = .ok y) :
    ∃ line, y = (Vu.ofLines x.body x.file line).bind fun v => v.build x.api x.macros r b := by
  unfold build at h
  cases hline : x.start o with
  | error e =>
    rw [hline] at h
    cases h
  | ok line =>
    rw [hline] at h
    refine ⟨line, ?_⟩
    cases hbreaks : o == .breaks && !x.fitsFrom line r b <;>
      simp [hbreaks, bind, Except.bind, pure, Except.pure, throw, throwThe,
        MonadExceptOf.throw] at h
    exact h.symm

/-- The process breaks off at a statement just if a line number about it is too large, if it does at
all. -/
theorem isOk_build_iff (x : StatementRequest) (o : Overflow) (r : Registry)
    (b : Build) : (x.build o r b).isOk = true ↔ (o = .breaks → x.fits r b = true) := by
  cases o with
  | wraps =>
    refine iff_of_true ?_ nofun
    obtain ⟨line, hline⟩ : ∃ line, x.start .wraps = .ok line := by
      unfold start
      split
      · exact ⟨_, Overflow.wraps_add⟩
      · exact ⟨_, rfl⟩
    unfold build
    rw [hline]
    rfl
  | breaks =>
    rw [eq_self, true_imp_iff]
    unfold build fits
    cases x.start .breaks with
    | error e => exact iff_of_false Bool.false_ne_true Bool.false_ne_true
    | ok line =>
      cases hfits : x.fitsFrom line r b <;>
        simp [hfits, bind, Except.bind, pure, Except.pure, throw, throwThe, MonadExceptOf.throw,
          Except.isOk, Except.toBool]

/-- Where the line numbers about a statement have 64 bits, it does not matter what becomes of sums
that are too large. -/
theorem build_of_fits {q : StatementRequest} {r : Registry} {b : Build} (h : q.fits r b = true)
    (o : Overflow) : q.build o r b = q.build .wraps r b := by
  cases o with
  | wraps => rfl
  | breaks =>
    unfold fits at h
    cases hline : q.start .breaks with
    | error e =>
      rw [hline] at h
      exact absurd h Bool.false_ne_true
    | ok line =>
      rw [hline] at h
      have hwraps : q.start .wraps = .ok line := start_wraps hline
      simp [build, hline, hwraps, h, bind, Except.bind, pure, Except.pure]

end Session.StatementRequest
end ValidUsage
