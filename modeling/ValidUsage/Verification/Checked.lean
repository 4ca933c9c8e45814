import ValidUsage.Verification.Issue

/-!
# What is found while a statement is checked

A check gives a value and besides it the issues it found, in the order in which they were found, the
number of requirements, and the types of the expressions it visited.
-/

namespace ValidUsage

/-- A value with all that was found on the way to it. -/
structure Checked (α : Type) where
  /-- The value. -/
  value : α
  /-- The issues. -/
  issues : List Issue := []
  /-- The number of requirements. -/
  requires : Nat := 0
  /-- The expressions that were visited, with their types. -/
  types : List (Expr × Ty) := []

namespace Checked

variable {α β : Type}

/-- What is found by one check and then by another, which may use the value of the first. -/
protected def bind (x : Checked α) (f : α → Checked β) : Checked β :=
  let y := f x.value
  ⟨y.value, x.issues ++ y.issues, x.requires + y.requires, x.types ++ y.types⟩

instance : Monad Checked where
  pure a := { value := a }
  bind := Checked.bind

/-- Report an issue. -/
def report (i : Issue) : Checked Unit := { value := (), issues := [i] }

/-- Report an issue if a condition holds. -/
def reportIf (c : Bool) (i : Issue) : Checked Unit := if c then report i else pure ()

/-- Report a mistake of an expression. -/
def mistake (m : Mistake) (e : Expr) : Checked Unit := report (.ofExpr m e [])

/-- Report a mistake of an expression that makes its type unknown. -/
def untyped (m : Mistake) (e : Expr) : Checked Ty := do
  mistake m e
  return .unknown

/-- Count a requirement. -/
def countRequirement : Checked Unit := { value := (), requires := 1 }

/-- Record the type of an expression that was visited. -/
def typed (e : Expr) (x : Checked Ty) : Checked Ty :=
  { x with types := x.types ++ [(e, x.value)] }

@[simp] theorem value_pure (a : α) : (pure a : Checked α).value = a := rfl

@[simp] theorem issues_pure (a : α) : (pure a : Checked α).issues = [] := rfl

@[simp] theorem requires_pure (a : α) : (pure a : Checked α).requires = 0 := rfl

@[simp] theorem types_pure (a : α) : (pure a : Checked α).types = [] := rfl

@[simp] theorem value_bind (x : Checked α) (f : α → Checked β) :
    (x >>= f).value = (f x.value).value := rfl

@[simp] theorem issues_bind (x : Checked α) (f : α → Checked β) :
    (x >>= f).issues = x.issues ++ (f x.value).issues := rfl

@[simp] theorem requires_bind (x : Checked α) (f : α → Checked β) :
    (x >>= f).requires = x.requires + (f x.value).requires := rfl

@[simp] theorem types_bind (x : Checked α) (f : α → Checked β) :
    (x >>= f).types = x.types ++ (f x.value).types := rfl

@[simp] theorem issues_report (i : Issue) : (report i).issues = [i] := rfl

@[simp] theorem requires_report (i : Issue) : (report i).requires = 0 := rfl

@[simp] theorem types_report (i : Issue) : (report i).types = [] := rfl

@[simp] theorem issues_reportIf (c : Bool) (i : Issue) :
    (reportIf c i).issues = if c then [i] else [] := by
  cases c <;> rfl

@[simp] theorem requires_reportIf (c : Bool) (i : Issue) : (reportIf c i).requires = 0 := by
  cases c <;> rfl

@[simp] theorem types_reportIf (c : Bool) (i : Issue) : (reportIf c i).types = [] := by
  cases c <;> rfl

@[simp] theorem issues_mistake (m : Mistake) (e : Expr) :
    (mistake m e).issues = [.ofExpr m e []] := rfl

@[simp] theorem requires_mistake (m : Mistake) (e : Expr) : (mistake m e).requires = 0 := rfl

@[simp] theorem types_mistake (m : Mistake) (e : Expr) : (mistake m e).types = [] := rfl

@[simp] theorem issues_untyped (m : Mistake) (e : Expr) :
    (untyped m e).issues = [.ofExpr m e []] := rfl

@[simp] theorem requires_untyped (m : Mistake) (e : Expr) : (untyped m e).requires = 0 := rfl

@[simp] theorem types_untyped (m : Mistake) (e : Expr) : (untyped m e).types = [] := rfl

@[simp] theorem issues_countRequirement : countRequirement.issues = [] := rfl

@[simp] theorem requires_countRequirement : countRequirement.requires = 1 := rfl

@[simp] theorem types_countRequirement : countRequirement.types = [] := rfl

@[simp] theorem value_typed (e : Expr) (x : Checked Ty) : (typed e x).value = x.value := rfl

@[simp] theorem issues_typed (e : Expr) (x : Checked Ty) : (typed e x).issues = x.issues := rfl

@[simp] theorem requires_typed (e : Expr) (x : Checked Ty) :
    (typed e x).requires = x.requires := rfl

@[simp] theorem types_typed (e : Expr) (x : Checked Ty) :
    (typed e x).types = x.types ++ [(e, x.value)] := rfl

end Checked

/-- A name that a statement binds. -/
structure Binding where
  /-- The name. -/
  name : String
  /-- The type of its value. -/
  type : Ty
  /-- Whether a loop binds it. -/
  ofLoop : Bool
  deriving DecidableEq, Repr

/-- The bindings that are visible, the last one first. -/
abbrev Scope := List Binding

namespace Scope

/-- The visible binding of a name. -/
def find? (scope : Scope) (name : String) : Option Binding := List.find? (·.name == name) scope

/-- Whether a name is visible. -/
def binds (scope : Scope) (name : String) : Bool := (scope.find? name).isSome

/-- Whether a name is bound by a loop. -/
def isLoopVariable (scope : Scope) (name : String) : Bool := (scope.find? name).any (·.ofLoop)

end Scope
end ValidUsage
