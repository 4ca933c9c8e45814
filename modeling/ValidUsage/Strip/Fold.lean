import ValidUsage.Predicate
import ValidUsage.Registry.Availability
import ValidUsage.Syntax.Walk

/-!
# Folding what a build decides

A build decides which versions, extensions, features, structures and enumeration values there are.
Conditions on these become `True` or `False`, and so does what follows from them: conditions joined
with `and`, `or` and `not`, choices, comparisons of truth values, and names that are bound to a
truth value. A branch that is always taken replaces its `if`.
-/

namespace ValidUsage

/-- What a build decides on: its configuration and what is available where. -/
structure Build where
  /-- The versions and extensions of the build. -/
  config : BuildConfig
  /-- What introduces the symbols of the API. -/
  availability : Availability

/-- The values of names that are bound to a truth value. -/
abbrev FoldedNames := Table Bool

namespace Build

/-- Whether an enumeration value is known not to be in the build. -/
def lacksValue (b : Build) (e : Expr) : Bool :=
  e.name?.any fun name =>
    b.availability.isEnumValue name && !b.availability.enumValueDefined b.config name

/-- The value of a condition on a structure: false if the build lacks it, and else unknown. -/
def structCondition? (b : Build) (name : String) : Option Bool :=
  if b.availability.structDefined b.config name then none else some false

/-- The name of the first argument of a call. -/
def argumentName? (args : List Expr) : Option String := args.head?.bind Expr.name?

/-- The value of a call of a predicate by its name, if the build decides it. A feature that stands
for an extension is decided by `aliasOfFeature?`. -/
def callCondition? (b : Build) (q : Predicate) (args : List Expr) : Option Bool :=
  match q with
  | .isVersion => match args with
    | [major, minor] => do return b.config.hasVersion (← major.int?) (← minor.int?)
    | _ => none
  | .isExtEnabled => do
    if b.config.hasExtension (← argumentName? args) then none else some false
  | .isFeatureEnabled => do
    if b.availability.featureDefined b.config (← argumentName? args) then none else some false
  | .hasPnext => do b.structCondition? (← argumentName? args)
  | _ => none

/-- The value of a call of a predicate on a receiver, if the build decides it. -/
def methodCondition? (b : Build) (m : Method) (args : List Expr) : Option Bool :=
  match m with
  | .hasPnext => do b.structCondition? (← argumentName? args)
  | .hasBit => do
    if b.availability.enumValueDefined b.config (← argumentName? args) then none else some false
  | _ => none

/-- The value of a call, if the build decides it. -/
def condition? (b : Build) (func : Expr) (args : List Expr) : Option Bool :=
  match func with
  | .name _ id => do b.callCondition? (← Predicate.ofName? id) args
  | .member _ _ attr => do b.methodCondition? (← Method.ofName? attr) args
  | _ => none

/-- The extension that a call asks for in place of a feature, when the build lacks the feature. -/
def aliasOfFeature? (b : Build) (func : Expr) (args : List Expr) : Option String := do
  if func.name? = some Predicate.isFeatureEnabled.name then
    let feature ← argumentName? args
    if b.availability.featureDefined b.config feature then none
    else b.config.legacyAlias? feature
  else none

end Build

namespace Expr

/-- A name, replaced by its value if that is known. -/
def foldName (names : FoldedNames) (p : Pos) (id : String) : Expr :=
  match names.get? id with
  | some v => .ofBool p v
  | none => .name p id

/-- The condition that an extension is enabled, in place of a call of one argument. -/
def foldAlias (b : Build) (names : FoldedNames) (p : Pos) (ext : String) (args : List Expr) :
    Expr :=
  if b.config.hasExtension ext then
    .call p (foldName names p Predicate.isExtEnabled.name)
      [foldName names ((args.head?.map Expr.pos).getD p) ext]
  else .ofBool p false

/-- Folded conditions joined by an operator. One that decides the whole replaces it; others that are
known are left out. -/
def foldBoolOp (p : Pos) (op : BoolOp) (values : List Expr) : Expr :=
  if values.any fun v => v.bool? == some (op == .or) then .ofBool p (op == .or)
  else match values.filter fun v => v.bool?.isNone with
    | [] => .ofBool p (op == .and)
    | [v] => v
    | live => .boolOp p op live

/-- The negation of a folded condition. -/
def foldNot (p : Pos) (operand : Expr) : Expr :=
  match operand.bool? with
  | some v => .ofBool p !v
  | none => match operand with
    | unary _ .not inner => inner
    | _ => .unary p .not operand

/-- A comparison of folded values. -/
def foldCompare (p : Pos) (left : Expr) (ops : List CmpOp) (comparators : List Expr) : Expr :=
  match ops, comparators with
  | [.eq], [right] => match left.bool?, right.bool? with
    | some v, some w => .ofBool p (v == w)
    | _, _ => .compare p left ops comparators
  | [.notEq], [right] => match left.bool?, right.bool? with
    | some v, some w => .ofBool p (v != w)
    | _, _ => .compare p left ops comparators
  | _, _ => .compare p left ops comparators

/-- The value of a comparison with an enumeration value that the build lacks. -/
def missingValue? (b : Build) (left : Expr) (ops : List CmpOp) (comparators : List Expr) :
    Option Bool :=
  match ops, comparators with
  | [.eq], [right] => if b.lacksValue left || b.lacksValue right then some false else none
  | [.notEq], [right] => if b.lacksValue left || b.lacksValue right then some true else none
  | _, _ => none

mutual

/-- An expression, folded for a build. -/
def fold (b : Build) (names : FoldedNames) : Expr → Expr
  | name p id => foldName names p id
  | call p func args =>
    match b.aliasOfFeature? func args with
    | some ext => foldAlias b names p ext args
    | none => match b.condition? func args with
      | some v => .ofBool p v
      | none => .call p (fold b names func) (foldList b names args)
  | compare p left ops comparators =>
    match missingValue? b left ops comparators with
    | some v => .ofBool p v
    | none => foldCompare p (fold b names left) ops (foldList b names comparators)
  | boolOp p op values => foldBoolOp p op (foldList b names values)
  | unary p op operand =>
    if op = .not then foldNot p (fold b names operand) else .unary p op (fold b names operand)
  | ifExp p test body orelse =>
    match (fold b names test).bool? with
    | some true => fold b names body
    | some false => fold b names orelse
    | none => .ifExp p (fold b names test) (fold b names body) (fold b names orelse)
  | binary p left op right => .binary p (fold b names left) op (fold b names right)
  | member p value attr => .member p (fold b names value) attr
  | subscript p value index => .subscript p (fold b names value) (fold b names index)
  | const p value => .const p value
  | tuple p elts => .tuple p elts
  | list p elts => .list p elts
  | slice p lower upper step => .slice p lower upper step

/-- Expressions, folded for a build. -/
def foldList (b : Build) (names : FoldedNames) : List Expr → List Expr
  | [] => []
  | e :: es => fold b names e :: foldList b names es

end

/-- The opposite of a condition; two negations are none. -/
def negated : Expr → Expr
  | unary _ .not inner => inner
  | e => .unary e.pos .not e

end Expr

/-- What folding makes of statements. -/
structure Folded where
  /-- The statements. -/
  stmts : Block
  /-- The statements that were requirements and require something false now, as they were. -/
  falsified : List Stmt

namespace Folded

/-- One statement. -/
def one (s : Stmt) : Folded := ⟨[s], []⟩

/-- No statements. -/
def nothing : Folded := ⟨[], []⟩

/-- Statements and then others. -/
def append (x y : Folded) : Folded := ⟨x.stmts ++ y.stmts, x.falsified ++ y.falsified⟩

/-- The statements of a block, or none if it holds nothing but comments. -/
def live (x : Folded) : Folded := if x.stmts.all Stmt.isComment then { x with stmts := [] } else x

end Folded

namespace Stmt

/-- The name with its value, if an assignment binds one name to a truth value. -/
def constantBinding? (targets : List Expr) (value : Expr) : Option (String × Bool) :=
  match targets, value.bool? with
  | [.name _ id], some v => some (id, v)
  | _, _ => none

/-- The value of the first argument of a call. -/
def firstArgument? : Expr → Option Bool
  | .call _ _ (arg :: _) => arg.bool?
  | _ => none

/-- A requirement, folded: it goes if what it requires is always true. -/
def foldRequire (s : Stmt) (p : Pos) (value : Expr) : Folded :=
  match firstArgument? value with
  | some true => .nothing
  | some false => ⟨[.expr p value], [s]⟩
  | none => .one (.expr p value)

/-- An `if` of folded parts. -/
def foldIf (p : Pos) (test : Expr) (body orelse : Folded) : Folded :=
  ⟨if body.stmts.isEmpty then
      if orelse.stmts.isEmpty then [] else [.ifElse p test.negated orelse.stmts []]
    else [.ifElse p test body.stmts orelse.stmts],
    body.falsified ++ orelse.falsified⟩

/-- The names whose values are known behind a statement. -/
def foldNames (b : Build) (names : FoldedNames) : Stmt → FoldedNames
  | assign _ targets value =>
    match constantBinding? targets (value.fold b names) with
    | some (id, v) => names.insert id v
    | none => names
  | _ => names

mutual

/-- A statement, folded for a build. -/
def fold (b : Build) (names : FoldedNames) : Stmt → Folded
  | assign p targets value =>
    match constantBinding? targets (value.fold b names) with
    | some _ => .nothing
    | none => .one (.assign p targets (value.fold b names))
  | ifElse p test body orelse =>
    match (test.fold b names).bool? with
    | some true => (foldBlock b names body).live
    | some false => (foldBlock b names orelse).live
    | none => foldIf p (test.fold b names) (foldBlock b names body).live
        (foldBlock b names orelse).live
  | forEach p target iter body orelse =>
    let inner := (foldBlock b names body).live
    ⟨if inner.stmts.isEmpty then []
      else [.forEach p target (iter.fold b names) inner.stmts orelse], inner.falsified⟩
  | expr p value =>
    if (expr p value).isComment then .one (.expr p value)
    else if value.callName? = some Predicate.require.name then
      foldRequire (.expr p value) p (value.fold b names)
    else .one (.expr p (value.fold b names))
  | other => .one other

/-- The statements of a block, folded for a build. -/
def foldBlock (b : Build) (names : FoldedNames) : Block → Folded
  | [] => .nothing
  | s :: ss => (fold b names s).append (foldBlock b (foldNames b names s) ss)

end

end Stmt

/-- A whole statement of valid usage, folded for a build. -/
def Block.fold (b : Build) (block : Block) : Folded := (Stmt.foldBlock b .empty block).live

end ValidUsage
