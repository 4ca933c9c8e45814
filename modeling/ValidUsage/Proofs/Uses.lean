import ValidUsage.Predicate
import ValidUsage.Proofs.Writable
import ValidUsage.Syntax.Walk

/-!
# Where the values of a statement are used

Every expression that stands for a value is used: as a condition, an operand, an argument and so on.
What is called, what is bound and the parts of a comment stand for no value. A use is taken together
with the names that the statement itself has bound where the use stands: those of the assignments
before it in the same and the enclosing blocks, and those of the loops around it.
-/

namespace ValidUsage

/-- What a value is used for. -/
inductive Role where
  /-- It is a statement of its own. -/
  | statement
  /-- An assignment gives it a name. -/
  | assigned
  /-- A loop visits its elements. -/
  | iterator
  /-- Something depends on its truth. -/
  | condition
  /-- An operator other than `==` and `!=` is applied to it. -/
  | operand
  /-- It is a side of `==` or `!=`. -/
  | compared
  /-- It is an argument of a call. -/
  | argument
  /-- A predicate is called on it. -/
  | receiver
  /-- It is called, and is neither a name nor a member. -/
  | callee
  /-- A conditional expression chooses it. -/
  | branch
  /-- A member of it is taken. -/
  | record
  /-- An element of it is taken. -/
  | array
  /-- It says which element is taken. -/
  | index
  /-- It is an element of a tuple or a list, or a bound of a slice. -/
  | element
  /-- It is written in a reference to a macro, and stands for a text. -/
  | text
  deriving DecidableEq, Repr

/-- The use of the operands of a comparison. -/
def Role.ofComparison : List CmpOp → Role
  | [.eq] | [.notEq] => compared
  | _ => operand

private theorem Role.ofComparison_ne_text (ops : List CmpOp) : Role.ofComparison ops ≠ .text := by
  unfold Role.ofComparison
  split <;> decide

namespace Expr

mutual

/-- The uses of an expression, itself used in a role, and of its parts. -/
def uses (role : Role) : Expr → List (Role × Expr)
  | boolOp p op values => (role, boolOp p op values) :: usesList .condition values
  | binary p left op right =>
    (role, binary p left op right) :: (uses .operand left ++ uses .operand right)
  | unary p op operand => (role, unary p op operand) :: uses .operand operand
  | compare p left ops comparators => (role, compare p left ops comparators) ::
    (uses (.ofComparison ops) left ++ usesList (.ofComparison ops) comparators)
  | call p (name q id) args => (role, call p (name q id) args) ::
    if id = Predicate.textMacro.name then (walkList args).map (Role.text, ·)
    else usesList .argument args
  | call p (member q receiver attr) args => (role, call p (member q receiver attr) args) ::
    (uses .receiver receiver ++ usesList .argument args)
  | call p func args => (role, call p func args) :: (uses .callee func ++ usesList .argument args)
  | member p value attr => (role, member p value attr) :: uses .record value
  | subscript p value index =>
    (role, subscript p value index) :: (uses .array value ++ uses .index index)
  | ifExp p test body orelse => (role, ifExp p test body orelse) ::
    (uses .condition test ++ (uses .branch body ++ uses .branch orelse))
  | name p id => [(role, name p id)]
  | const p value => [(role, const p value)]
  | tuple p elts => (role, tuple p elts) :: usesList .element elts
  | list p elts => (role, list p elts) :: usesList .element elts
  | slice p lower upper step => (role, slice p lower upper step) ::
    (usesOption lower ++ (usesOption upper ++ usesOption step))

/-- The uses of the expressions of a list, each used in a role. -/
def usesList (role : Role) : List Expr → List (Role × Expr)
  | [] => []
  | e :: es => uses role e ++ usesList role es

/-- The uses of a bound of a slice. -/
def usesOption : Option Expr → List (Role × Expr)
  | none => []
  | some e => uses .element e

end

/-- A part of expressions is a part of one of them. -/
theorem mem_walkList {es : List Expr} {x : Expr} : x ∈ walkList es ↔ ∃ e ∈ es, x ∈ e.walk := by
  induction es with
  | nil => simp [walkList]
  | cons e es ih => simp [walkList, ih]

/-- An expression is among its parts. -/
theorem self_mem_walk (e : Expr) : e ∈ e.walk := by cases e <;> simp [walk]

/-- The expressions directly within an expression, what is called among them. -/
def children : Expr → List Expr
  | boolOp _ _ values => values
  | binary _ left _ right => [left, right]
  | unary _ _ operand => [operand]
  | compare _ left _ comparators => left :: comparators
  | call _ func args => func :: args
  | member _ value _ => [value]
  | subscript _ value index => [value, index]
  | ifExp _ test body orelse => [test, body, orelse]
  | tuple _ elts => elts
  | list _ elts => elts
  | slice _ lower upper step => lower.toList ++ upper.toList ++ step.toList
  | name _ _ => []
  | const _ _ => []

/-- The parts of an expression are itself and those of its children. -/
theorem walk_eq (e : Expr) : e.walk = e :: walkList e.children := by
  cases e with
  | slice p lower upper step =>
    cases lower <;> cases upper <;> cases step <;> simp [walk, children, walkList, walkOption]
  | _ => simp [walk, children, walkList]

private theorem sizeOf_lt_of_mem_children {e y : Expr} (h : y ∈ e.children) :
    sizeOf y < sizeOf e := by
  have hs (es : List Expr) (h : y ∈ es) : sizeOf y < sizeOf es := List.sizeOf_lt_of_mem h
  have ho (o : Option Expr) (h : y ∈ o.toList) : sizeOf y < sizeOf o := by
    obtain rfl := Option.mem_toList.1 h
    simp
  cases e with
  | name | const => cases h
  | boolOp p op es | tuple p es | list p es =>
    have := hs es h
    simp only [boolOp.sizeOf_spec, tuple.sizeOf_spec, list.sizeOf_spec]
    omega
  | compare p e ops es | call p e es =>
    simp only [compare.sizeOf_spec, call.sizeOf_spec]
    rcases List.mem_cons.1 h with rfl | h
    · omega
    · have := hs es h
      omega
  | unary p op e | member p e attr =>
    obtain rfl := List.mem_singleton.1 h
    simp only [unary.sizeOf_spec, member.sizeOf_spec]
    omega
  | slice p lower upper step =>
    simp only [children, List.mem_append] at h
    simp only [slice.sizeOf_spec]
    rcases h with (h | h) | h
    · have := ho lower h
      omega
    · have := ho upper h
      omega
    · have := ho step h
      omega
  | binary p e op e' | subscript p e e' =>
    simp only [children, List.mem_cons, List.not_mem_nil, or_false] at h
    simp only [binary.sizeOf_spec, subscript.sizeOf_spec]
    rcases h with rfl | rfl <;> omega
  | ifExp p e e' e'' =>
    simp only [children, List.mem_cons, List.not_mem_nil, or_false] at h
    simp only [ifExp.sizeOf_spec]
    rcases h with rfl | rfl | rfl <;> omega

/-- What is within an expression within another one is within that one. -/
theorem walk_subset_of_mem_walk {e x : Expr} (h : x ∈ e.walk) : x.walk ⊆ e.walk := by
  rw [walk_eq e, List.mem_cons] at h
  rcases h with rfl | h
  · exact fun _ hy => hy
  · obtain ⟨y, hy, hx⟩ := mem_walkList.1 h
    have := sizeOf_lt_of_mem_children hy
    rw [walk_eq e]
    exact fun z hz =>
      List.mem_cons_of_mem _ (mem_walkList.2 ⟨y, hy, walk_subset_of_mem_walk hx hz⟩)
termination_by sizeOf e

/-- An expression is among its uses. -/
theorem self_mem_uses (role : Role) (e : Expr) : (role, e) ∈ e.uses role := by
  cases e with
  | call p func args => cases func <;> simp [uses]
  | _ => simp [uses]

/-- The parts of an expression that are used for its value, each with its role. What is written in a
reference to a macro is not evaluated. -/
def parts : Expr → List (Role × Expr)
  | boolOp _ _ values => values.map (.condition, ·)
  | binary _ left _ right => [(.operand, left), (.operand, right)]
  | unary _ _ operand => [(.operand, operand)]
  | compare _ left ops comparators => (left :: comparators).map (.ofComparison ops, ·)
  | call _ (name _ id) args =>
    if id = Predicate.textMacro.name then [] else args.map (.argument, ·)
  | call _ (member _ receiver _) args => (.receiver, receiver) :: args.map (.argument, ·)
  | call _ func args => (.callee, func) :: args.map (.argument, ·)
  | member _ value _ => [(.record, value)]
  | subscript _ value index => [(.array, value), (.index, index)]
  | ifExp _ test body orelse => [(.condition, test), (.branch, body), (.branch, orelse)]
  | name .. | const .. => []
  | tuple _ elts | list _ elts => elts.map (.element, ·)
  | slice _ lower upper step =>
    (lower.toList ++ (upper.toList ++ step.toList)).map (.element, ·)

/-- The uses in the parts of an expression. -/
def usesIn (ps : List (Role × Expr)) : List (Role × Expr) := ps.flatMap fun q => q.2.uses q.1

private theorem usesList_eq (role : Role) (es : List Expr) :
    usesList role es = usesIn (es.map (role, ·)) := by
  induction es with
  | nil => rfl
  | cons e es ih => simp [usesList, usesIn, ih]

private theorem usesOption_eq (o : Option Expr) :
    usesOption o = usesIn (o.toList.map (.element, ·)) := by
  cases o <;> simp [usesOption, usesIn]

/-- The uses of an expression are itself, what is written in a reference to a macro, and the uses in
its parts. -/
theorem uses_eq (role : Role) (e : Expr) :
    ∃ texts, (∀ u ∈ texts, u.1 = .text ∧ e.callName? = some Predicate.textMacro.name) ∧
      e.uses role = (role, e) :: (texts ++ usesIn e.parts) := by
  cases e with
  | call p func args =>
    cases func with
    | name q id =>
      by_cases hid : id = Predicate.textMacro.name
      · exact ⟨(walkList args).map (.text, ·), by simp [callName?, name?, hid],
          by simp [uses, parts, usesIn, hid]⟩
      · exact ⟨[], by simp, by simp [uses, parts, usesList_eq, hid]⟩
    | _ => exact ⟨[], by simp, by simp [uses, parts, usesList_eq, usesIn]⟩
  | _ => exact ⟨[], by simp, by simp [uses, parts, usesList_eq, usesOption_eq, usesIn]⟩

/-- No part of an expression stands for a text. -/
theorem ne_text_of_mem_parts {e : Expr} {q : Role × Expr} (h : q ∈ e.parts) : q.1 ≠ .text := by
  have hmap {role : Role} {es : List Expr} (h : q ∈ es.map (role, ·)) (hr : role ≠ .text) :
      q.1 ≠ .text := by
    obtain ⟨x, -, rfl⟩ := List.mem_map.1 h
    exact hr
  cases e with
  | call p func args =>
    cases func with
    | name r id =>
      simp only [parts] at h
      split at h
      · cases h
      · exact hmap h nofun
    | _ =>
      rcases List.mem_cons.1 h with rfl | h
      · exact nofun
      · exact hmap h nofun
  | compare p left ops comparators => exact hmap h (Role.ofComparison_ne_text ops)
  | boolOp | tuple | list | slice => exact hmap h nofun
  | name | const => cases h
  | _ =>
    simp only [parts, List.mem_cons, List.not_mem_nil, or_false] at h
    rcases h with rfl | rfl | rfl <;> nofun

/-- A part is directly within the whole, or the receiver in what the whole calls. -/
theorem mem_children_of_mem_parts {e : Expr} {q : Role × Expr} (h : q ∈ e.parts) :
    q.2 ∈ e.children ∨ ∃ y ∈ e.children, q.2 ∈ y.children := by
  have hmap {role : Role} {es : List Expr} (h : q ∈ es.map (role, ·)) : q.2 ∈ es := by
    obtain ⟨x, hx, rfl⟩ := List.mem_map.1 h
    exact hx
  cases e with
  | call p func args =>
    cases func with
    | name r id =>
      simp only [parts] at h
      split at h
      · cases h
      · exact .inl (List.mem_cons_of_mem _ (hmap h))
    | member r receiver attr =>
      rcases List.mem_cons.1 h with rfl | h
      · exact .inr ⟨_, List.mem_cons_self, List.mem_singleton_self _⟩
      · exact .inl (List.mem_cons_of_mem _ (hmap h))
    | _ =>
      rcases List.mem_cons.1 h with rfl | h
      · exact .inl List.mem_cons_self
      · exact .inl (List.mem_cons_of_mem _ (hmap h))
  | slice p lower upper step =>
    refine .inl ?_
    rw [children, List.append_assoc]
    exact hmap h
  | boolOp | tuple | list | compare => exact .inl (hmap h)
  | name | const => cases h
  | _ => exact .inl (List.mem_map_of_mem (f := Prod.snd) h)

/-- Parts are smaller than the whole. -/
theorem sizeOf_lt_of_mem_parts {e : Expr} {q : Role × Expr} (h : q ∈ e.parts) :
    sizeOf q.2 < sizeOf e := by
  rcases mem_children_of_mem_parts h with h | ⟨y, hy, h⟩
  · exact sizeOf_lt_of_mem_children h
  · exact Nat.lt_trans (sizeOf_lt_of_mem_children h) (sizeOf_lt_of_mem_children hy)

/-- What holds of an expression, and of the parts of whatever it holds of, holds of all its uses;
what is written in references to macros has to be considered apart. -/
theorem uses_induction {P : Role × Expr → Prop} (text : ∀ u, u.1 = .text → P u)
    (part : ∀ u, u.1 ≠ .text → P u → ∀ q ∈ u.2.parts, P q) {role : Role} {e : Expr}
    (hr : role ≠ .text) (self : P (role, e)) : ∀ u ∈ e.uses role, P u := by
  intro u hu
  obtain ⟨texts, ht, heq⟩ := uses_eq role e
  rw [heq, List.mem_cons, List.mem_append] at hu
  rcases hu with rfl | hu | hu
  · exact self
  · exact text u (ht u hu).1
  · obtain ⟨q, hq, hu⟩ := List.mem_flatMap.1 hu
    have := sizeOf_lt_of_mem_parts hq
    exact uses_induction text part (ne_text_of_mem_parts hq) (part _ hr self q hq) u hu
termination_by sizeOf e

/-- The parts of a part are parts of the whole. -/
theorem walk_subset_of_mem_parts {e : Expr} {q : Role × Expr} (h : q ∈ e.parts) :
    q.2.walk ⊆ e.walk := by
  have hchild {x y : Expr} (h : y ∈ x.children) : y.walk ⊆ x.walk := fun z hz => by
    rw [walk_eq x]
    exact List.mem_cons_of_mem _ (mem_walkList.2 ⟨y, h, hz⟩)
  rcases mem_children_of_mem_parts h with h | ⟨y, hy, h⟩
  · exact hchild h
  · exact List.Subset.trans (hchild h) (hchild hy)

/-- An expression without references to macros has no use in one. -/
theorem ne_text_of_mem_uses {role : Role} {e : Expr} (hr : role ≠ .text)
    (h : ∀ x ∈ e.walk, x.callName? ≠ some Predicate.textMacro.name) :
    ∀ u ∈ e.uses role, u.1 ≠ .text := by
  intro u hu
  obtain ⟨texts, ht, heq⟩ := uses_eq role e
  rw [heq, List.mem_cons, List.mem_append] at hu
  rcases hu with rfl | hu | hu
  · exact hr
  · exact absurd (ht u hu).2 (h e (self_mem_walk e))
  · obtain ⟨q, hq, hu⟩ := List.mem_flatMap.1 hu
    have := sizeOf_lt_of_mem_parts hq
    exact ne_text_of_mem_uses (ne_text_of_mem_parts hq)
      (fun x hx => h x (walk_subset_of_mem_parts hq hx)) u hu
termination_by sizeOf e

/-- Whether an expression is a name or a member, as what is called usually is. -/
def isPath : Expr → Bool
  | name .. | member .. => true
  | _ => false

/-- All parts of a name are paths. -/
theorem isPath_of_mem_walk_name {p : Pos} {id : String} {x : Expr} (h : x ∈ (name p id).walk) :
    x.isPath = true := by
  obtain rfl := List.mem_singleton.1 h
  rfl

/-- A part is the whole or written in it, what is called by it, or a part of one of its parts. -/
theorem mem_walk_cases (role : Role) {e x : Expr} (h : x ∈ e.walk) :
    (∃ u ∈ e.uses role, u.2 = x) ∨ (∃ p args, e = .call p x args ∧ x.isPath = true) ∨
      x ∈ walkList (e.parts.map (·.2)) := by
  have hself : x = e → ∃ u ∈ e.uses role, u.2 = x := by
    rintro rfl
    exact ⟨_, self_mem_uses role x, rfl⟩
  cases e with
  | call p func args =>
    simp only [walk, List.mem_cons, List.mem_append] at h
    rcases h with h | hf | ha
    · exact .inl (hself h)
    · cases func with
      | name q id =>
        obtain rfl := List.mem_singleton.1 hf
        exact .inr (.inl ⟨p, args, rfl, rfl⟩)
      | member q receiver attr =>
        rcases List.mem_cons.1 hf with rfl | hf
        · exact .inr (.inl ⟨p, args, rfl, rfl⟩)
        · exact .inr (.inr (List.mem_append_left _ hf))
      | _ => exact .inr (.inr (List.mem_append_left _ hf))
    · cases func with
      | name q id =>
        by_cases hid : id = Predicate.textMacro.name
        · exact .inl ⟨(.text, x), by simp [uses, hid, ha], rfl⟩
        · exact .inr (.inr (by simpa [parts, hid, Function.comp_def] using ha))
      | _ => exact .inr (.inr (by simp [parts, walkList, ha, Function.comp_def]))
  | slice p lower upper step =>
    rw [walk_eq, List.mem_cons] at h
    rcases h with h | h
    · exact .inl (hself h)
    · exact .inr (.inr (by simpa [parts, children, Function.comp_def] using h))
  | name p id | const p value => exact .inl (hself (List.mem_singleton.1 h))
  | _ =>
    simp only [walk, List.mem_cons] at h
    rcases h with h | h
    · exact .inl (hself h)
    · exact .inr (.inr (by simpa [parts, walkList, Function.comp_def] using h))

/-- Whatever is in an expression is used, or it is a name or a member that is called there. -/
theorem exists_mem_uses (role : Role) {e x : Expr} (hx : x ∈ e.walk) :
    (∃ u ∈ e.uses role, u.2 = x) ∨
      x.isPath = true ∧ ∃ u ∈ e.uses role, ∃ p args, u.2 = .call p x args := by
  rcases mem_walk_cases role hx with h | ⟨p, args, rfl, hpath⟩ | h
  · exact .inl h
  · exact .inr ⟨hpath, _, self_mem_uses role _, p, args, rfl⟩
  · obtain ⟨y, hy, hx⟩ := mem_walkList.1 h
    obtain ⟨q, hq, rfl⟩ := List.mem_map.1 hy
    have := sizeOf_lt_of_mem_parts hq
    obtain ⟨texts, -, heq⟩ := uses_eq role e
    have hmem {u : Role × Expr} (hu : u ∈ q.2.uses q.1) : u ∈ e.uses role :=
      heq ▸ List.mem_cons_of_mem _ (List.mem_append_right _ (List.mem_flatMap.2 ⟨q, hq, hu⟩))
    rcases exists_mem_uses q.1 hx with ⟨u, hu, rfl⟩ | ⟨hpath, u, hu, hcall⟩
    · exact .inl ⟨u, hmem hu, rfl⟩
    · exact .inr ⟨hpath, u, hmem hu, hcall⟩
termination_by sizeOf e

end Expr

/-- A name that a statement binds, and whether a loop binds it. -/
structure Local where
  /-- The name. -/
  name : String
  /-- Whether a loop binds it. -/
  ofLoop : Bool
  deriving DecidableEq, Repr

/-- The name that a target binds. -/
def Local.ofTarget (ofLoop : Bool) (target : Expr) : List Local :=
  target.name?.toList.map fun name => ⟨name, ofLoop⟩

/-- Names that are visible, the last binding first. -/
abbrev Locals := List Local

namespace Locals

/-- Whether a name is visible. -/
def binds (visible : Locals) (name : String) : Bool := visible.any (·.name == name)

/-- Whether a name is visible as that of the element which a loop visits. -/
def isLoopVariable (visible : Locals) (name : String) : Bool :=
  (visible.find? (·.name == name)).any (·.ofLoop)

end Locals

/-- An expression in a statement. -/
structure Use where
  /-- The names of the statement that are visible. -/
  visible : Locals
  /-- What the expression is used for. -/
  role : Role
  /-- The expression. -/
  expr : Expr
  deriving DecidableEq

namespace Stmt

/-- The uses of an expression where some names are visible. -/
def usesAt (visible : Locals) (role : Role) (e : Expr) : List Use :=
  (e.uses role).map fun u => ⟨visible, u.1, u.2⟩

/-- The names that are visible behind a statement because of it. -/
def assigns : Stmt → Locals
  | assign _ targets _ => targets.flatMap (Local.ofTarget false)
  | _ => []

mutual

/-- The uses of the expressions of a statement and of its blocks. -/
def uses (visible : Locals) : Stmt → List Use
  | assign _ _ value => usesAt visible .assigned value
  | update _ target _ value => usesAt visible .operand target ++ usesAt visible .operand value
  | ifElse _ test body orelse =>
    usesAt visible .condition test ++ (usesBlock visible body ++ usesBlock visible orelse)
  | forEach _ target iter body orelse => usesAt visible .iterator iter ++
    (usesBlock (Local.ofTarget true target ++ visible) body ++ usesBlock visible orelse)
  | whileDo _ test body orelse =>
    usesAt visible .condition test ++ (usesBlock visible body ++ usesBlock visible orelse)
  | expr p value => if (expr p value).isComment then [] else usesAt visible .statement value
  | pass _ | breakOut _ | nextRound _ => []

/-- The uses of the expressions of the statements of a block. -/
def usesBlock (visible : Locals) : Block → List Use
  | [] => []
  | s :: ss => uses visible s ++ usesBlock (s.assigns ++ visible) ss

end

mutual

/-- The targets of the assignments and loops of a statement, each with the names that are visible
where it is bound. -/
def targets (visible : Locals) : Stmt → List (Locals × Expr)
  | assign _ targets _ => targets.map (visible, ·)
  | update _ target _ _ => [(visible, target)]
  | ifElse _ _ body orelse | whileDo _ _ body orelse =>
    targetsBlock visible body ++ targetsBlock visible orelse
  | forEach _ target _ body orelse => (visible, target) ::
    (targetsBlock (Local.ofTarget true target ++ visible) body ++ targetsBlock visible orelse)
  | expr .. | pass _ | breakOut _ | nextRound _ => []

/-- The targets of the assignments and loops of a block. -/
def targetsBlock (visible : Locals) : Block → List (Locals × Expr)
  | [] => []
  | s :: ss => targets visible s ++ targetsBlock (s.assigns ++ visible) ss

end

mutual

/-- A statement and the statements of its blocks. -/
def nested : Stmt → List Stmt
  | ifElse p test body orelse =>
    ifElse p test body orelse :: (nestedBlock body ++ nestedBlock orelse)
  | forEach p target iter body orelse =>
    forEach p target iter body orelse :: (nestedBlock body ++ nestedBlock orelse)
  | whileDo p test body orelse =>
    whileDo p test body orelse :: (nestedBlock body ++ nestedBlock orelse)
  | s => [s]

/-- The statements of a block and those of their blocks. -/
def nestedBlock : Block → List Stmt
  | [] => []
  | s :: ss => nested s ++ nestedBlock ss

end

variable {b : Block}

/-- An expression of a block is one of a statement of it. -/
theorem mem_walkBlock {x : Expr} : x ∈ walkBlock b ↔ ∃ s ∈ b, x ∈ s.walk := by
  induction b with
  | nil => simp [walkBlock]
  | cons s ss ih => simp [walkBlock, ih]

/-- A statement within a block stands within a statement of it. -/
theorem mem_nestedBlock {x : Stmt} : x ∈ nestedBlock b ↔ ∃ s ∈ b, x ∈ s.nested := by
  induction b with
  | nil => simp [nestedBlock]
  | cons s ss ih => simp [nestedBlock, ih]

/-- The expressions of a statement of a block are expressions of the block. -/
theorem walk_subset_of_mem_nestedBlock {x : Stmt}
    (ih : ∀ s ∈ b, x ∈ s.nested → x.walk ⊆ s.walk) (h : x ∈ nestedBlock b) :
    x.walk ⊆ walkBlock b := by
  obtain ⟨s, hs, hx⟩ := mem_nestedBlock.1 h
  exact fun e he => mem_walkBlock.2 ⟨s, hs, ih s hs hx he⟩

/-- The expressions of a nested statement are expressions of the statement. -/
theorem walk_subset_of_mem_nested {x s : Stmt} (h : x ∈ s.nested) : x.walk ⊆ s.walk := by
  induction s using partsInduction with
  | ifElse p test body orelse ihb iho | whileDo p test body orelse ihb iho =>
    simp only [nested, List.mem_cons, List.mem_append] at h
    rcases h with rfl | h | h
    · exact List.Subset.refl _
    · exact List.subset_append_of_subset_right _ (List.subset_append_of_subset_left _
        (walk_subset_of_mem_nestedBlock ihb h))
    · exact List.subset_append_of_subset_right _ (List.subset_append_of_subset_right _
        (walk_subset_of_mem_nestedBlock iho h))
  | forEach p target iter body orelse ihb iho =>
    simp only [nested, List.mem_cons, List.mem_append] at h
    rcases h with rfl | h | h
    · exact List.Subset.refl _
    · exact List.subset_append_of_subset_right _ (List.subset_append_of_subset_right _
        (List.subset_append_of_subset_left _ (walk_subset_of_mem_nestedBlock ihb h)))
    · exact List.subset_append_of_subset_right _ (List.subset_append_of_subset_right _
        (List.subset_append_of_subset_right _ (walk_subset_of_mem_nestedBlock iho h)))
  | _ =>
    obtain rfl := List.mem_singleton.1 h
    exact List.Subset.refl _

/-- The parts of an expression of a block are in the block, if that is so for each statement. -/
theorem walk_subset_of_mem_block {x : Expr} (ih : ∀ s ∈ b, x ∈ s.walk → x.walk ⊆ s.walk)
    (h : x ∈ walkBlock b) : x.walk ⊆ walkBlock b := by
  obtain ⟨s, hs, hx⟩ := mem_walkBlock.1 h
  exact fun y hy => mem_walkBlock.2 ⟨s, hs, ih s hs hx hy⟩

/-- What is within an expression of a statement is within the statement. -/
theorem walk_subset_of_mem_walk {x : Expr} {s : Stmt} (h : x ∈ s.walk) : x.walk ⊆ s.walk := by
  have list (es : List Expr) (h : x ∈ Expr.walkList es) : x.walk ⊆ Expr.walkList es := by
    obtain ⟨y, hy, hx⟩ := Expr.mem_walkList.1 h
    exact fun z hz => Expr.mem_walkList.2 ⟨y, hy, Expr.walk_subset_of_mem_walk hx hz⟩
  have left {l l' : List Expr} (h : x.walk ⊆ l) : x.walk ⊆ l ++ l' :=
    List.subset_append_of_subset_left l' h
  have right {l l' : List Expr} (h : x.walk ⊆ l') : x.walk ⊆ l ++ l' :=
    List.subset_append_of_subset_right l h
  induction s using partsInduction with
  | assign p targets value =>
    rcases List.mem_append.1 h with h | h
    · exact left (list targets h)
    · exact right (Expr.walk_subset_of_mem_walk h)
  | update p target op value =>
    rcases List.mem_append.1 h with h | h
    · exact left (Expr.walk_subset_of_mem_walk h)
    · exact right (Expr.walk_subset_of_mem_walk h)
  | ifElse p test body orelse ihb iho | whileDo p test body orelse ihb iho =>
    rcases List.mem_append.1 h with h | h
    · exact left (Expr.walk_subset_of_mem_walk h)
    rcases List.mem_append.1 h with h | h
    · exact right (left (walk_subset_of_mem_block ihb h))
    · exact right (right (walk_subset_of_mem_block iho h))
  | forEach p target iter body orelse ihb iho =>
    rcases List.mem_append.1 h with h | h
    · exact left (Expr.walk_subset_of_mem_walk h)
    rcases List.mem_append.1 h with h | h
    · exact right (left (Expr.walk_subset_of_mem_walk h))
    rcases List.mem_append.1 h with h | h
    · exact right (right (left (walk_subset_of_mem_block ihb h)))
    · exact right (right (right (walk_subset_of_mem_block iho h)))
  | expr p value => exact Expr.walk_subset_of_mem_walk h
  | pass p | breakOut p | nextRound p => exact absurd h List.not_mem_nil

end Stmt

namespace Block

/-- The uses of the expressions of a whole statement. -/
def uses (b : Block) : List Use := Stmt.usesBlock [] b

/-- The targets of the assignments and loops of a whole statement. -/
def targets (b : Block) : List (Locals × Expr) := Stmt.targetsBlock [] b

/-- All statements of a whole statement, blocks within blocks included. -/
def statements (b : Block) : List Stmt := Stmt.nestedBlock b

end Block
end ValidUsage
