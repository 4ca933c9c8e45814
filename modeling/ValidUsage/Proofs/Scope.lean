import ValidUsage.Proofs.Meaning

/-!
# Where the names of a statement are visible

A name is visible from its binding to the end of the block, and in the blocks within; the target of
a loop is visible in the loop. A statement is closed when it reads the names that it binds only
where they are visible, assigns no visible name anew, calls predicates with as many arguments as
they are declared with, and keeps its own names apart from those that a build knows.

Folding puts the value of an assigned name in its place, and the condition on an extension in the
place of one on a feature. So two more things matter, which `Distinct` states: a loop must not bind
the name of a visible assignment again, and no name of the statement's own may stand for what the
condition on an extension needs.
-/

namespace ValidUsage

/-- Whether one of the tables lists a name. -/
def Availability.tracks (a : Availability) (name : String) : Bool :=
  a.features.contains name || a.structs.contains name || a.enumValues.contains name

namespace Expr

/-- Whether what is called refers to its argument by name: to an extension, a feature, a structure
or a bit. -/
def refersByName : Expr → Bool
  | name _ id => [Predicate.isExtEnabled, .isFeatureEnabled, .hasPnext].any (·.name == id)
  | member _ _ attr => [Method.hasPnext, .hasBit].any (·.name == attr)
  | _ => false

/-- The number of arguments that what is called is declared with, if it is a predicate. -/
def arity? : Expr → Option Nat
  | name _ id => (Predicate.ofName? id).map (·.signature.args.length)
  | member _ _ attr => (Method.ofName? attr).map (·.signature.args.length)
  | _ => none

/-- Whether a part of an expression may stand where some of the names that are bound are visible. -/
def mayStand (bound visible : List String) : Expr → Bool
  | name _ id => id != Predicate.require.name && (!bound.contains id || visible.contains id)
  | call _ func args =>
    func.name?.all (fun id => !bound.contains id && id != Predicate.textMacro.name) &&
    func.arity?.all (· == args.length) &&
    (!func.refersByName || args.all fun arg => arg.name?.all (!bound.contains ·))
  | tuple .. | list .. | slice .. => false
  | _ => true

/-- Whether every part of an expression may stand where some of the names are visible. -/
def isScoped (bound visible : List String) (e : Expr) : Bool :=
  e.walk.all (mayStand bound visible)

end Expr

namespace Stmt

mutual

/-- The names that the assignments and loops of a statement bind. -/
def bound : Stmt → List String
  | assign _ targets _ => targets.filterMap Expr.name?
  | forEach _ target _ body orelse => target.name?.toList ++ (boundBlock body ++ boundBlock orelse)
  | ifElse _ _ body orelse | whileDo _ _ body orelse => boundBlock body ++ boundBlock orelse
  | _ => []

/-- The names that the assignments and loops of a block bind. -/
def boundBlock : Block → List String
  | [] => []
  | s :: ss => bound s ++ boundBlock ss

end

/-- The name that is visible behind a statement because of it. -/
def introduces : Stmt → List String
  | assign _ [.name _ id] _ => [id]
  | _ => []

mutual

/-- Whether a statement is in the language and reads names where they are visible. -/
def isScoped (bound visible : List String) : Stmt → Bool
  | assign _ [.name _ id] value => value.isScoped bound visible && !visible.contains id
  | ifElse _ test body orelse =>
    test.isScoped bound visible && isScopedBlock bound visible body &&
      isScopedBlock bound visible orelse
  | forEach _ target iter body [] =>
    iter.isScoped bound visible && isScopedBlock bound (target.name?.toList ++ visible) body
  | expr p value =>
    (expr p value).isComment || match value.requirement? with
      | some arg => !bound.contains Predicate.require.name && arg.isScoped bound visible
      | none => value.isScoped bound visible
  | pass _ => true
  | _ => false

/-- Whether the statements of a block are in the language and read names where they are visible. -/
def isScopedBlock (bound visible : List String) : Block → Bool
  | [] => true
  | s :: ss => isScoped bound visible s && isScopedBlock bound (introduces s ++ visible) ss

end

mutual

/-- Whether no loop of a statement binds the name of a visible assignment again. -/
def keepsAssigned (assigned : List String) : Stmt → Bool
  | ifElse _ _ body orelse => keepsAssignedBlock assigned body && keepsAssignedBlock assigned orelse
  | forEach _ target _ body _ =>
    target.name?.all (!assigned.contains ·) && keepsAssignedBlock assigned body
  | _ => true

/-- Whether no loop of a block binds the name of a visible assignment again. -/
def keepsAssignedBlock (assigned : List String) : Block → Bool
  | [] => true
  | s :: ss => keepsAssigned assigned s && keepsAssignedBlock (introduces s ++ assigned) ss

end

end Stmt

namespace Block

/-- The names that a whole statement binds. -/
def bound (block : Block) : List String := Stmt.boundBlock block

/-- Whether a statement is in the language, reads names where they are visible, and has names that
are not those of a build. -/
structure Closed (block : Block) (b : Build) : Prop where
  /-- Names are read where they are visible. -/
  inScope : Stmt.isScopedBlock block.bound [] block = true
  /-- The names of the statement are not tracked. -/
  untracked : ∀ id ∈ block.bound, b.availability.tracks id = false

/-- Whether loops keep the names of assignments, and the names of a statement are not those that the
condition on an extension is made of. -/
structure Distinct (block : Block) (b : Build) : Prop where
  /-- No loop binds the name of a visible assignment again. -/
  keeps : Stmt.keepsAssignedBlock [] block = true
  /-- No name is that of the condition on an extension. -/
  predicate : Predicate.isExtEnabled.name ∉ block.bound
  /-- No name is that of an extension which stands for a feature. -/
  extension : ∀ feature ext, b.config.legacyAlias? feature = some ext → ext ∉ block.bound

end Block
end ValidUsage
