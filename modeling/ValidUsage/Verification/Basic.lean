import ValidUsage.Verification.Expr

/-!
# Checking statements

Statements are checked in order; a name is visible from its binding to the end of the block, and in
the blocks within. Comments are skipped. A whole statement of valid usage is accepted when there is
no issue, and it must require something.
-/

namespace ValidUsage
namespace Verification

/-- What is wrong with the name that an assignment or a loop would bind. -/
def bindingMistake? (s : Subject) (scope : Scope) (name : String) : Option Mistake :=
  if isPredicateName name then some .targetPredicate
  else if s.isParameter name then some .targetParameter
  else if s.isToken name then some .targetToken
  else if scope.binds name then some .rebound
  else none

/-- The name that a target binds, if it may. -/
def checkTarget (s : Subject) (scope : Scope) (target : Expr) : Checked (Option String) :=
  match target.name? with
  | none => do
    .mistake .targetNotName target
    return none
  | some name => match bindingMistake? s scope name with
    | some m => do
      .mistake m target
      return none
    | none => pure (some name)

/-- The scope with one more binding, if there is a name. -/
def Scope.bind? (scope : Scope) (name : Option String) (type : Ty) (ofLoop : Bool) : Scope :=
  match name with
  | some name => ⟨name, type, ofLoop⟩ :: scope
  | none => scope

/-- Whether an expression is a list of values that is written out. -/
def isDisplay : Expr → Bool
  | .tuple .. | .list .. => true
  | _ => false

/-- The type of the elements that a loop visits. -/
def checkIterator (s : Subject) (scope : Scope) (iter : Expr) : Checked Ty :=
  if isDisplay iter then .untyped .iteratorNotArray iter
  else do
    let t ← checkExpr s scope iter
    if t.isUnknown then return t
    else if !t.isArray then .untyped .iteratorNotArray iter
    else return t.indexed

mutual

/-- Check a statement; the value is the scope behind it. -/
def checkStmt (s : Subject) (scope : Scope) : Stmt → Checked Scope
  | .assign p targets value => do
    let t ← checkExpr s scope value
    match targets with
    | [target] => do
      let name ← checkTarget s scope target
      return Scope.bind? scope name t false
    | _ => do
      .report (.ofStmt .cascade (.assign p targets value))
      return scope
  | .update _ target _ _ => do
    .mistake .combinedAssignment target
    return scope
  | .ifElse _ test body orelse => do
    let t ← checkExpr s scope test
    judgeCondition "if statement" test t
    checkStmts s scope body
    checkStmts s scope orelse
    return scope
  | .forEach p target iter body orelse => do
    .reportIf (!orelse.isEmpty) (.ofStmt .loopElse (.forEach p target iter body orelse))
    let name ← checkTarget s scope target
    let t ← checkIterator s scope iter
    checkStmts s (Scope.bind? scope name t true) body
    return scope
  | .whileDo p test body orelse => do
    .report (.ofStmt .whileLoop (.whileDo p test body orelse))
    return scope
  | .expr p value =>
    if (Stmt.expr p value).isComment then pure scope
    else do
      let _ ← checkExpr s scope value
      return scope
  | .pass _ => pure scope
  | .breakOut p => do
    .report (.ofStmt .breakOut (.breakOut p))
    return scope
  | .nextRound p => do
    .report (.ofStmt .nextRound (.nextRound p))
    return scope

/-- Check the statements of a block. -/
def checkStmts (s : Subject) (scope : Scope) : Block → Checked Unit
  | [] => pure ()
  | x :: xs => do
    let scope ← checkStmt s scope x
    checkStmts s scope xs

end

end Verification

/-- What was found out about a statement of valid usage. -/
structure Verification where
  /-- The issues, in the order of the statement. -/
  issues : List Issue
  /-- The number of requirements. -/
  requires : Nat
  /-- The expressions that were visited, with their types. -/
  types : List (Expr × Ty)

namespace Verification

/-- Whether the statement is accepted. -/
def isOk (v : Verification) : Bool := v.issues.isEmpty

/-- The issues as diagnostics of a statement about an API. -/
def diagnostics (v : Verification) (origin : Origin) (api : String) : List Diagnostic :=
  v.issues.map (Issue.toDiagnostic origin api)

end Verification

/-- Check a statement about a subject. -/
def Block.verify (s : Subject) (b : Block) : Verification :=
  let found := Verification.checkStmts s [] b
  ⟨found.issues ++ (if found.requires = 0 then [.noRequirement] else []), found.requires,
    found.types⟩

end ValidUsage
