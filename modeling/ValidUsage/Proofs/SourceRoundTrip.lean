import ValidUsage.Proofs.KeepComments
import ValidUsage.Proofs.ReadStmt

/-!
# Reading source text back

The source text of a block is read as the block: its comments are kept as calls, the text of the
calls and of everything else is scanned to the tokens of its layout, and these are read as the
statements that were laid out. Only positions are those of the text.
-/

namespace ValidUsage.Block

/-- Nothing is wrong with a rendering when the text that it stands for is read as the same program.
-/
theorem fault?_eq_none_iff {b : Block} {s t : List Char} {r : Rendering}
    (h : readable? s r = some t) :
    b.fault? s r = none ↔ ∃ b', ofText t = .ok b' ∧ isSame b' b = true := by
  unfold fault?
  simp only [h, Option.bind_some]
  cases ofText t with
  | error e => simp
  | ok b' => simp

/-- A block that can be written is read back from its layout, if numbers with a fraction are. -/
theorem ofText_layout {fractions : Binary64 → Bool}
    (hf : ∀ x, fractions x = true → x.IsWritten) {b : Block} (h : b.isWritable fractions = true) :
    ∃ b', ofText b.source = .ok b' ∧ b'.unplaced = b.unplaced := by
  have hs := (isWritable_iff.1 h).1
  obtain ⟨toks, htoks, hbare⟩ := tokenize_layout hf hs
  obtain ⟨b', hb', he⟩ := Parser.ofTokens_layout hf h hbare
  refine ⟨b', ?_, he⟩
  rw [ofText, keepComments_source hf hs, parse, htoks]
  exact hb'

/-- Reading undoes writing: a block without fractions that can be written is read back from its
source text as it is, comments included, up to positions. -/
theorem ofText_source {b : Block} (h : b.isWritable (fun _ => false) = true) :
    ∃ b', ofText b.source = .ok b' ∧ b'.unplaced = b.unplaced :=
  ofText_layout Binary64.isWritten_of_none h

/-- A comment, then a choice with an `elif` in a loop. -/
def commentedLoop : Block :=
  [.expr .none (.call .none (.name .none commentName) [.const .none (.str "each \"region\" \\ 1")]),
   .forEach .none (.name .none "r") (.name .none "pRegions")
    [.ifElse .none
      (.boolOp .none .and
        [.compare .none (.member .none (.name .none "r") "size") [.gt] [.const .none (.int 0)],
         .unary .none .not (.name .none "skip")])
      [.expr .none (.call .none (.name .none "require")
        [.compare .none
          (.binary .none (.subscript .none (.name .none "r") (.const .none (.str "it's"))) .mod
            (.binary .none (.const .none (.int 2)) .add (.name .none "x")))
          [.eq] [.unary .none .minus (.const .none (.int 1))]])]
      [.ifElse .none (.name .none "last") [.pass .none]
        [.update .none (.name .none "n") .add (.const .none (.int 1))]]]
    []]

/-- The loop reads back, its comment included. -/
theorem ofText_commentedLoop : commentedLoop.isWritable (fun _ => false) = true ∧
    ∃ b', ofText commentedLoop.source = .ok b' ∧ b'.unplaced = commentedLoop.unplaced :=
  ⟨by decide, ofText_source (by decide)⟩

end ValidUsage.Block
