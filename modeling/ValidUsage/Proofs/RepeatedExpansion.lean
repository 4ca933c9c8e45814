import ValidUsage.Vu.Basic

/-!
# Expanding a statement again

A statement may be called upon any number of times once it was read: to replace its macros, to be
checked, laid out or tagged. Replacing starts from the text as it was read each time, so that of
several replacements the last one counts that succeeded, whatever came in between, and what goes by
the statement as it was written never changes.
-/

namespace ValidUsage.Vu

/-- What a statement is called upon for. -/
inductive Call where
  /-- Replace its macros. -/
  | applyMacros (macros : Table String)
  /-- Replace its macros and check it. -/
  | check (api : String) (macros : Table String) (r : Registry)
  /-- Verify it as it stands. -/
  | verify (s : Subject)
  /-- Warn of its dead code. -/
  | deadCodeWarning
  /-- Render it as it was written. -/
  | render (s : Subject) (r : Rendering)
  /-- Tag it. -/
  | parameterTag

/-- What a call comes to. -/
inductive Answer where
  | applied (x : Except VuError Unit)
  | checked (x : Except VuError CheckedVu)
  | verified (x : Except VuError Verification)
  | warned (d : Option Diagnostic)
  | rendered (x : Except VuError (List Char))
  | tagged (tag : String)

/-- The statement after a call, and the answer to it. -/
def call (v : Vu) : Call → Vu × Answer
  | .applyMacros macros =>
    match v.applyMacros macros with
    | .ok v' => (v', .applied (.ok ()))
    | .error e => (v, .applied (.error e))
  | .check api macros r => ((v.check api macros r).1, .checked (v.check api macros r).2)
  | .verify s => (v, .verified (v.verify s))
  | .deadCodeWarning => (v, .warned v.deadCodeWarning?)
  | .render s r => (v, .rendered (v.render s r))
  | .parameterTag => (v, .tagged v.parameterTag)

/-- The statement after some calls, and the answers to them. -/
def callAll (v : Vu) : List Call → Vu × List Answer
  | [] => (v, [])
  | c :: cs => (((v.call c).1.callAll cs).1, (v.call c).2 :: ((v.call c).1.callAll cs).2)

/-- The macros that a call replaces. -/
def Call.macros? : Call → Option (Table String)
  | .applyMacros macros | .check _ macros _ => some macros
  | _ => none

/-- Whether a call goes by the statement as it was written. -/
def Call.readsRaw : Call → Bool
  | .render .. | .parameterTag => true
  | _ => false

/-- The statement that a text writes with its macros replaced, if they can be and it can be read
then. -/
def replacement? (s : List Char) (macros : Table String) : Option Block :=
  ((expand macros s).toOption.map (·.text)).bind fun text => (parse text).toOption

/-- Whether a call does not get as far as to replace the macros of a text. -/
def Call.failsToExpand (s : List Char) (c : Call) : Bool :=
  c.macros?.any fun macros => (replacement? s macros).isNone

/-- What the last of some calls that replaced the macros of a text put in its place. -/
def lastReplacement? (s : List Char) (cs : List Call) : Option Block :=
  cs.reverse.findSome? fun c => c.macros?.bind (replacement? s)

/-! ## One call -/

/-- Replacing starts from the text, and fails exactly if there is no replacement. -/
theorem applyMacros_cases (v : Vu) (macros : Table String) :
    (∃ b, replacement? v.text macros = some b ∧
      v.applyMacros macros = .ok { v with replaced := some b }) ∨
    (∃ e, replacement? v.text macros = none ∧ v.applyMacros macros = .error e) := by
  unfold applyMacros replacement?
  cases expand macros v.text with
  | error e => exact .inr ⟨_, rfl, rfl⟩
  | ok x =>
    show (∃ b, (parse x.text).toOption = some b ∧ _) ∨ ∃ e, (parse x.text).toOption = none ∧ _
    dsimp only
    cases parse x.text with
    | error e => exact .inr ⟨_, rfl, rfl⟩
    | ok b => exact .inl ⟨b, rfl, rfl⟩

/-- A call changes nothing but the replacement, and that only if it makes a new one. -/
theorem call_eq (v : Vu) (c : Call) :
    (v.call c).1 = { v with replaced := (c.macros?.bind (replacement? v.text)).or v.replaced } := by
  cases c with
  | applyMacros macros =>
    obtain ⟨b, hb, h⟩ | ⟨e, hb, h⟩ := v.applyMacros_cases macros <;>
      simp [call, h, Call.macros?, hb]
  | check api macros r =>
    obtain ⟨b, hb, h⟩ | ⟨e, hb, h⟩ := v.applyMacros_cases macros <;>
      simp [call, check, h, Call.macros?, hb]
  | _ => rfl

/-- A call that goes by the statement as it was written does not see the replacement. -/
theorem answer_of_readsRaw (v : Vu) {c : Call} (h : c.readsRaw = true) (b : Option Block) :
    (({ v with replaced := b } : Vu).call c).2 = (v.call c).2 := by
  cases c with
  | render s r => rfl
  | parameterTag => rfl
  | _ => exact absurd h Bool.false_ne_true

/-! ## Any number of calls -/

private theorem lastReplacement?_cons (s : List Char) (c : Call) (cs : List Call) :
    lastReplacement? s (c :: cs) =
      (lastReplacement? s cs).or (c.macros?.bind (replacement? s)) := by
  simp [lastReplacement?, List.findSome?_append]

/-- After any calls the replacement is that of the last call that made one. -/
theorem callAll_eq (v : Vu) (cs : List Call) :
    (v.callAll cs).1 = { v with replaced := (lastReplacement? v.text cs).or v.replaced } := by
  induction cs generalizing v with
  | nil => rfl
  | cons c cs ih =>
    have htext : (v.call c).1.text = v.text := by rw [call_eq]
    show ((v.call c).1.callAll cs).1 = _
    rw [ih, htext, call_eq, lastReplacement?_cons, Option.or_assoc]

/-- The answer to a call is that of the statement after the calls before it. -/
theorem answer_callAll (v : Vu) (pre : List Call) (c : Call) (post : List Call) :
    (v.callAll (pre ++ c :: post)).2[pre.length]? = some ((v.callAll pre).1.call c).2 := by
  induction pre generalizing v with
  | nil => rfl
  | cons c' pre ih => exact ih (v.call c').1

/-- A statement that was read from a text never accumulates replacements: after any calls, failed or
not, what goes by the statement as it was written is as it was at first, the replacement is the one
that the last successful call made of the text, and a call that fails to make one leaves the
statement as it is. -/
theorem callAll_starts_afresh {s : List Char} {origin : Origin} {v : Vu}
    (h : ofText s origin = .ok v) (cs : List Call) :
    let v' := (v.callAll cs).1
    v'.raw = v.raw ∧ (∀ x r, v'.render x r = v.render x r) ∧ v'.parameterTag = v.parameterTag ∧
      (∀ pre c post, cs = pre ++ c :: post → c.readsRaw = true →
        (v.callAll cs).2[pre.length]? = some (v.call c).2) ∧
      v'.expanded = (lastReplacement? s cs).getD v.raw ∧
      ∀ c, c.failsToExpand s = true → (v'.call c).1 = v' := by
  obtain ⟨b, -, rfl⟩ := ofText_eq_ok_iff.1 h
  intro v'
  have hv' : v' = ⟨s, b, lastReplacement? s cs, origin⟩ := by
    rw [show v' = _ from callAll_eq _ cs, Option.or_none]
  refine ⟨by rw [hv'], fun x r => by rw [hv']; rfl, by rw [hv']; rfl, ?_, by rw [hv']; rfl, ?_⟩
  · rintro pre c post rfl hc
    rw [answer_callAll, callAll_eq, answer_of_readsRaw _ hc]
  · intro c hc
    obtain ⟨macros, hmacros, hnone⟩ := (Option.any_eq_true _ _).1 hc
    have hb : c.macros?.bind (replacement? v'.text) = none := by
      rw [hmacros, hv']
      exact Option.isNone_iff_eq_none.1 hnone
    rw [call_eq, hb, Option.none_or]

/-- A statement is expanded, expanded again without the macro it refers to and with one that cannot
be read in its place, and expanded for good by a check. -/
theorem callAll_starts_afresh_checked :
    let s := "require(macro(size) == 1)".toList
    let origin : Origin := ⟨"sizes", 1, 0⟩
    let macros (value : String) : Table String := Table.empty.insert "size" value
    let cs : List Call := [.applyMacros (macros "width"), .applyMacros .empty, .parameterTag,
      .applyMacros (macros "(1"), .check "vkCmdResize" (macros "pname:height") ⟨"0.1.0", [], .empty,
        .empty, []⟩]
    ∃ v b, ofText s origin = .ok v ∧ parse "require(height == 1)".toList = .ok b ∧
      (v.callAll cs).1.raw = v.raw ∧ (v.callAll cs).1.expanded = b := by
  intro s origin macros cs
  have hok : ((ofText s origin).toOption.bind fun v =>
      (parse "require(height == 1)".toList).toOption.map fun b =>
        decide ((lastReplacement? s cs).getD v.raw = b)) = some true := by
    decide +kernel
  cases hv : ofText s origin with
  | error e =>
    rw [hv] at hok
    exact absurd hok nofun
  | ok v =>
    cases hb : parse "require(height == 1)".toList with
    | error e =>
      rw [hv, hb] at hok
      exact absurd hok nofun
    | ok b =>
      rw [hv, hb] at hok
      obtain ⟨hraw, -, -, -, hexpanded, -⟩ := callAll_starts_afresh hv cs
      have hlast : (lastReplacement? s cs).getD v.raw = b := by simpa [Except.toOption] using hok
      exact ⟨v, b, rfl, rfl, hraw, hexpanded.trans hlast⟩

end ValidUsage.Vu
