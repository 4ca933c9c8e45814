import ValidUsage.Predicate
import ValidUsage.Syntax.Walk
import ValidUsage.Text.Search

/-!
# The parameter tag

A new statement is tagged with the parameter that it is about: the first name that is neither bound
by the statement nor a constant of the API. A reference to a macro takes precedence, and its tag is
in braces. The search skips the arguments of predicates other than `require` and
`externally_synchronized`, and the blocks behind `else`.
-/

namespace ValidUsage.Tag

/-- The name of the macro that an expression refers to. -/
def macroName? : Expr → Option String
  | .call _ (.name _ id) args =>
    if id = Predicate.textMacro.name then args.head?.bind Expr.name? else none
  | _ => none

/-- The first macro that a statement refers to. -/
def firstMacro? (b : Block) : Option String := b.walk.findSome? macroName?

/-- Whether a name can be that of a parameter. -/
def isCandidate (bound : List String) (id : String) : Bool :=
  !"VK_".toList.isPrefixOf id.toList && !bound.contains id

/-- Whether the argument of a predicate can be a parameter. -/
def searchesArgument (id : String) : Bool :=
  id == Predicate.require.name || id == Predicate.externallySynchronized.name

mutual

/-- The first parameter that an expression names. -/
def inExpr? (bound : List String) : Expr → Option String
  | .name _ id => if isCandidate bound id then some id else none
  | .call _ (.name _ id) args =>
    match args with
    | [] => none
    | arg :: _ => if searchesArgument id then inExpr? bound arg else none
  | .call _ (.member _ receiver _) _ => inExpr? bound receiver
  | .call _ _ _ => none
  | .member _ value _ => inExpr? bound value
  | .boolOp _ _ values => inList? bound values
  | .binary _ left _ right => (inExpr? bound left).or (inExpr? bound right)
  | .unary _ _ operand => inExpr? bound operand
  | .compare _ left _ comparators => (inExpr? bound left).or (inList? bound comparators)
  | .subscript _ value index => (inExpr? bound value).or (inExpr? bound index)
  | .ifExp _ test body orelse =>
    (inExpr? bound test).or ((inExpr? bound body).or (inExpr? bound orelse))
  | .tuple _ elts => inList? bound elts
  | .list _ elts => inList? bound elts
  | .const _ _ => none
  | .slice _ _ _ _ => none

/-- The first parameter that expressions name. -/
def inList? (bound : List String) : List Expr → Option String
  | [] => none
  | e :: es => (inExpr? bound e).or (inList? bound es)

end

/-- What a search comes to: the names that are bound by then, and what it found. -/
structure Search where
  /-- The names that are bound. -/
  bound : List String
  /-- The parameter. -/
  found : Option String

mutual

/-- Search a statement, given the names that are bound before it. -/
def inStmt (bound : List String) : Stmt → Search
  | .assign _ targets value =>
    let bound := targets.filterMap Expr.name? ++ bound
    ⟨bound, inExpr? bound value⟩
  | .ifElse _ test body _ => inBody bound (inExpr? bound test) body
  | .whileDo _ test body _ => inBody bound (inExpr? bound test) body
  | .forEach _ target iter body _ =>
    let bound := target.name?.toList ++ bound
    inBody bound (inExpr? bound iter) body
  | .update _ _ _ value => ⟨bound, inExpr? bound value⟩
  | .expr p value =>
    if (Stmt.expr p value).isComment then ⟨bound, none⟩ else ⟨bound, inExpr? bound value⟩
  | .pass _ | .breakOut _ | .nextRound _ => ⟨bound, none⟩

/-- Search a block, unless something was found before it. -/
def inBody (bound : List String) (found : Option String) : Block → Search
  | [] => ⟨bound, found⟩
  | s :: ss =>
    match found with
    | some name => ⟨bound, some name⟩
    | none =>
      let first := inStmt bound s
      inBody first.bound first.found ss

end

end ValidUsage.Tag

namespace ValidUsage

/-- The tag of a statement that names no parameter. -/
def noTag : String := "None"

/-- The parameter tag of a statement whose macros are not expanded. -/
def Block.parameterTag (b : Block) : String :=
  match Tag.firstMacro? b with
  | some name => "\x7b" ++ name ++ "\x7d"
  | none => (Tag.inBody [] none b).found.getD noTag

end ValidUsage
