import ValidUsage.Proofs.Writable

/-!
# A layout without positions

Where the parts of a statement stood when it was read does not show in its layout.
-/

namespace ValidUsage

namespace Expr

@[simp] theorem isChoice_unplaced (e : Expr) : e.unplaced.isChoice = e.isChoice := by
  cases e <;> rfl

@[simp] theorem wrapsOperand_unplaced (e : Expr) : e.unplaced.wrapsOperand = e.wrapsOperand := by
  cases e <;> rfl

@[simp] theorem wrapsReceiver_unplaced (e : Expr) : e.unplaced.wrapsReceiver = e.wrapsReceiver := by
  cases e <;> rfl

@[simp] theorem wrapsCompared_unplaced (e : Expr) : e.unplaced.wrapsCompared = e.wrapsCompared := by
  cases e <;> rfl

@[simp] theorem wrapsLeft_unplaced (op : BinOp) (e : Expr) :
    e.unplaced.wrapsLeft op = e.wrapsLeft op := by
  cases e <;> rfl

@[simp] theorem wrapsRight_unplaced (op : BinOp) (e : Expr) :
    e.unplaced.wrapsRight op = e.wrapsRight op := by
  cases e <;> rfl

@[simp] theorem ownParens_unplaced (es : List Expr) :
    ownParens (es.map unplaced) = ownParens es := by
  match es with
  | [] => rfl
  | [e] => cases e <;> rfl
  | e :: e' :: es => cases e <;> rfl

/-- Whether an expression is laid out as without positions. -/
def LaidOutAlike (e : Expr) : Prop := e.unplaced.layout = e.layout

private theorem operands_unplaced {es : List Expr} (h : ∀ e ∈ es, e.LaidOutAlike) (op : BoolOp) :
    operands op (es.map unplaced) = operands op es := by
  funext n
  induction es with
  | nil => rfl
  | cons e es ih =>
    have he : e.unplaced.layout = e.layout := h e List.mem_cons_self
    have ih := ih fun e he => h e (List.mem_cons_of_mem _ he)
    cases es with
    | nil => simp only [List.map_cons, List.map_nil, operands, he, isChoice_unplaced]
    | cons e' es =>
      have hcons (e : Expr) {es : List Expr} (hne : es ≠ []) : operands op (e :: es) n =
          wrapped e.isChoice n e.layout ++
            .blank :: .operator op.spelling :: .lineBreak n :: operands op es n := by
        rw [operands]
        exact hne
      rw [List.map_cons, hcons _ (by simp), hcons e (List.cons_ne_nil e' es), ih, he,
        isChoice_unplaced]

private theorem comparisons_unplaced {es : List Expr} (h : ∀ e ∈ es, e.LaidOutAlike)
    (ops : List CmpOp) :
    comparisons ops (es.map unplaced) = comparisons ops es := by
  funext n
  induction es generalizing ops with
  | nil => rfl
  | cons e es ih =>
    have he : e.unplaced.layout = e.layout := h e List.mem_cons_self
    cases ops with
    | nil => simp [comparisons]
    | cons op ops =>
      rw [List.map_cons, comparisons, comparisons, he, wrapsCompared_unplaced,
        ih fun e he => h e (List.mem_cons_of_mem _ he)]

private theorem arguments_unplaced {es : List Expr} (h : ∀ e ∈ es, e.LaidOutAlike) (tf : Bool) :
    arguments tf (es.map unplaced) = arguments tf es := by
  funext n
  induction es with
  | nil => rfl
  | cons e es ih =>
    have he : e.unplaced.layout = e.layout := h e List.mem_cons_self
    have ih := ih fun e he => h e (List.mem_cons_of_mem _ he)
    cases es with
    | nil => simp only [List.map_cons, List.map_nil, arguments, he]
    | cons e' es =>
      have hcons (e : Expr) {es : List Expr} (hne : es ≠ []) : arguments tf (e :: es) n =
          named tf (e.layout n) ++ .comma :: arguments tf es n := by
        rw [arguments]
        exact hne
      rw [List.map_cons, hcons _ (by simp), hcons e (List.cons_ne_nil e' es), ih, he]

private theorem bound_unplaced {o : Option Expr} (h : ∀ e ∈ o, e.LaidOutAlike) (before : List Mark)
    (n : Nat) : bound before (o.map unplaced) n = bound before o n := by
  cases o with
  | none => rfl
  | some e =>
    have he : e.unplaced.layout = e.layout := h e rfl
    rw [Option.map_some, bound, bound, he]

private theorem layout_call_unplaced {p : Pos} {func : Expr} {args : List Expr}
    (hf : func.LaidOutAlike)
    (hm : ∀ q value attr, func = member q value attr → value.LaidOutAlike)
    (h : ∀ e ∈ args, e.LaidOutAlike) : (call p func args).LaidOutAlike := by
  have hf : func.unplaced.layout = func.layout := hf
  rw [LaidOutAlike, unplaced_call]
  funext n
  cases func with
  | name q id =>
    simp only [unplaced_name, layout, ownParens_unplaced, arguments_unplaced h]
  | member q value attr =>
    have hv : value.unplaced.layout = value.layout := hm q value attr rfl
    simp only [unplaced_member, layout, ownParens_unplaced, arguments_unplaced h, hv,
      wrapsReceiver_unplaced]
  | _ =>
    rw [layout, layout, hf, wrapsReceiver_unplaced, ownParens_unplaced, arguments_unplaced h]
    all_goals simp

/-- The layout of an expression does not show positions. -/
theorem layout_unplaced (e : Expr) : e.unplaced.layout = e.layout := by
  induction e using receiverInduction with
  | boolOp p op values ih =>
    funext n
    rw [unplaced_boolOp, layout, layout, operands_unplaced ih]
  | binary p left op right ihl ihr =>
    funext n
    rw [unplaced_binary, layout, layout, ihl, ihr, wrapsLeft_unplaced, wrapsRight_unplaced]
  | unary p op operand ih =>
    funext n
    rw [unplaced_unary, layout, layout, ih, wrapsOperand_unplaced]
  | compare p left ops comparators ihl ih =>
    funext n
    rw [unplaced_compare, layout, layout, ihl, wrapsCompared_unplaced, comparisons_unplaced ih]
  | call p func args ihf ihm ih => exact layout_call_unplaced ihf ihm ih
  | member p value attr ih =>
    funext n
    rw [unplaced_member, layout, layout, ih, wrapsReceiver_unplaced]
  | subscript p value index ihv ihi =>
    funext n
    rw [unplaced_subscript, layout, layout, ihv, ihi, wrapsReceiver_unplaced]
  | ifExp p test body orelse iht ihb iho =>
    funext n
    rw [unplaced_ifExp, layout, layout, iht, ihb, iho, isChoice_unplaced, isChoice_unplaced,
      isChoice_unplaced]
  | name p id =>
    funext n
    rw [unplaced_name, layout, layout]
  | const p value =>
    funext n
    rw [unplaced_const, layout, layout]
  | tuple p elts ih =>
    funext n
    rw [unplaced_tuple, layout, layout, arguments_unplaced ih, List.length_map]
  | list p elts ih =>
    funext n
    rw [unplaced_list, layout, layout, arguments_unplaced ih]
  | slice p lower upper step ihl ihu ihs =>
    funext n
    rw [unplaced_slice, layout, layout, bound_unplaced ihl, bound_unplaced ihu, bound_unplaced ihs]

end Expr

namespace Stmt

open ValidUsage.Expr (layout_unplaced)

private theorem comment?_unplaced (p : Pos) (value : Expr) :
    (expr .none value.unplaced).comment? = (expr p value).comment? := by
  cases value with
  | call q func args =>
    cases func with
    | name r id =>
      match args with
      | [] => rfl
      | [arg] =>
        cases arg with
        | const t c => cases c <;> rfl
        | _ => rfl
      | arg :: arg' :: rest =>
        cases arg with
        | const t c => cases c <;> rfl
        | _ => rfl
    | _ => rfl
  | _ => rfl

/-- Whether a statement is laid out as without positions. -/
def LaidOutAlike (s : Stmt) : Prop := s.unplaced.layout = s.layout

private theorem layoutBlock_unplaced {b : Block} (h : ∀ s ∈ b, s.LaidOutAlike) (n : Nat) :
    layoutBlock (unplacedBlock b) n = layoutBlock b n := by
  induction b with
  | nil => rfl
  | cons s ss ih =>
    have hs : s.unplaced.layout = s.layout := h s List.mem_cons_self
    rw [unplacedBlock, layoutBlock, layoutBlock, hs, ih fun s hs => h s (List.mem_cons_of_mem _ hs)]

private theorem layoutElse_unplaced {b : Block} (h : ∀ s ∈ b, s.LaidOutAlike)
    (hif : ∀ p test body orelse, ifElse p test body orelse ∈ b →
      (∀ n, layoutBlock (unplacedBlock body) n = layoutBlock body n) ∧
        ∀ n, layoutElse true (unplacedBlock orelse) n = layoutElse true orelse n)
    (chained : Bool) (n : Nat) :
    layoutElse chained (unplacedBlock b) n = layoutElse chained b n := by
  have hblock (n : Nat) := layoutBlock_unplaced h n
  cases b with
  | nil => rfl
  | cons s ss =>
    have hs : s.unplaced.layout = s.layout := h s List.mem_cons_self
    have hss (n : Nat) := layoutBlock_unplaced (fun s hs => h s (List.mem_cons_of_mem _ hs)) n
    by_cases hi : ∃ p test body orelse, s = ifElse p test body orelse ∧ ss = []
    · obtain ⟨p, test, body, orelse, rfl, rfl⟩ := hi
      obtain ⟨hb, ho⟩ := hif p test body orelse List.mem_cons_self
      rw [unplacedBlock, unplacedBlock, unplaced, layoutElse, layoutElse]
      rw [unplaced] at hs
      rw [hs, hb, ho, layout_unplaced]
    · rw [unplacedBlock, layoutElse, layoutElse, hs, hss]
      · rintro p test body orelse rfl rfl
        exact hi ⟨p, test, body, orelse, rfl, rfl⟩
      · intro p test body orelse he hnil
        cases ss with
        | cons => exact absurd hnil nofun
        | nil =>
          cases s with
          | ifElse p' test' body' orelse' => exact hi ⟨p', test', body', orelse', rfl, rfl⟩
          | _ => exact absurd he nofun

/-- The layout of a statement does not show positions. -/
theorem layout_unplaced (s : Stmt) : s.unplaced.layout = s.layout := by
  suffices h : s.LaidOutAlike ∧ ∀ p test body orelse, s = ifElse p test body orelse →
      (∀ n, layoutBlock (unplacedBlock body) n = layoutBlock body n) ∧
        ∀ n, layoutElse true (unplacedBlock orelse) n = layoutElse true orelse n from h.1
  induction s using partsInduction with
  | assign p targets value =>
    refine ⟨funext fun n => ?_, nofun⟩
    simp only [unplaced, layout, List.flatMap_map, Expr.layout_unplaced]
  | update p target op value =>
    refine ⟨funext fun n => ?_, nofun⟩
    simp only [unplaced, layout, Expr.layout_unplaced]
  | ifElse p test body orelse ihb iho =>
    have hb (n : Nat) := layoutBlock_unplaced (fun s hs => (ihb s hs).1) n
    have ho (c : Bool) (n : Nat) := layoutElse_unplaced (fun s hs => (iho s hs).1)
      (fun p test body orelse hs => (iho _ hs).2 p test body orelse rfl) c n
    refine ⟨funext fun n => ?_, ?_⟩
    · simp only [unplaced, layout, Expr.layout_unplaced, hb, ho]
    · rintro p' test' body' orelse' he
      cases he
      exact ⟨hb, ho true⟩
  | forEach p target iter body orelse ihb iho =>
    have hb (n : Nat) := layoutBlock_unplaced (fun s hs => (ihb s hs).1) n
    have ho (c : Bool) (n : Nat) := layoutElse_unplaced (fun s hs => (iho s hs).1)
      (fun p test body orelse hs => (iho _ hs).2 p test body orelse rfl) c n
    refine ⟨funext fun n => ?_, nofun⟩
    simp only [unplaced, layout, Expr.layout_unplaced, hb, ho]
  | whileDo p test body orelse ihb iho =>
    have hb (n : Nat) := layoutBlock_unplaced (fun s hs => (ihb s hs).1) n
    have ho (c : Bool) (n : Nat) := layoutElse_unplaced (fun s hs => (iho s hs).1)
      (fun p test body orelse hs => (iho _ hs).2 p test body orelse rfl) c n
    refine ⟨funext fun n => ?_, nofun⟩
    simp only [unplaced, layout, Expr.layout_unplaced, hb, ho]
  | expr p value =>
    refine ⟨funext fun n => ?_, nofun⟩
    rw [unplaced, layout, layout, comment?_unplaced p, Expr.layout_unplaced]
  | pass | breakOut | nextRound => exact ⟨rfl, nofun⟩

end Stmt

namespace Block

/-- The layout of a block does not depend on positions. -/
theorem layout_unplaced (b : Block) : b.unplaced.layout = b.layout := by
  cases b with
  | nil => rfl
  | cons s ss =>
    rw [unplaced, Stmt.unplacedBlock, layout, layout, Stmt.layout_unplaced,
      Stmt.layoutBlock_unplaced fun s _ => s.layout_unplaced]

/-- Blocks that are the same up to positions have the same source text. -/
theorem source_eq_of_unplaced {b b' : Block} (h : b.unplaced = b'.unplaced) :
    b.source = b'.source := by
  rw [source, source, ← layout_unplaced b, h, layout_unplaced]

end Block
end ValidUsage
