import ValidUsage.Diagnostic.Origin
import ValidUsage.Layout.Source
import ValidUsage.Text.Blank
import ValidUsage.Text.Lines

/-!
# What can be wrong with a statement

A mistake says what is wrong; an issue is a mistake at a place of a statement, with the source text
at fault. The wording of each mistake and its code in the catalogue are given once, here.
-/

namespace ValidUsage

/-- What is wrong with a part of a statement. -/
inductive Mistake where
  /-- Nothing is required. -/
  | noRequirement
  /-- An assignment has several targets. -/
  | cascade
  /-- An assignment is combined with an operator. -/
  | combinedAssignment
  /-- A loop has an `else`. -/
  | loopElse
  /-- There is a `while`. -/
  | whileLoop
  /-- There is a `break`. -/
  | breakOut
  /-- There is a `continue`. -/
  | nextRound
  /-- What is bound is not a name. -/
  | targetNotName
  /-- What is bound is the name of a predicate. -/
  | targetPredicate
  /-- What is bound is a parameter of the subject. -/
  | targetParameter
  /-- What is bound is a name of the API. -/
  | targetToken
  /-- What is bound is bound already. -/
  | rebound
  /-- A loop is not over an array. -/
  | iteratorNotArray
  /-- A condition is a pointer. -/
  | pointerCondition (context : String)
  /-- A condition is no truth value. -/
  | conditionNotBool (context : String)
  /-- The branches of a choice have different types. -/
  | choiceMismatch
  /-- There is a tuple. -/
  | tuple
  /-- There is a list. -/
  | list
  /-- There is a slice. -/
  | slice
  /-- The name of a predicate stands for a value. -/
  | predicateAsValue (name : String)
  /-- A name is unknown in a statement about an API. -/
  | unknownName (api : String)
  /-- The operand of an operator is a pointer. -/
  | pointerOperand (op : UnaryOp)
  /-- The operand of an operator is of the wrong class. -/
  | wrongOperand (op : UnaryOp) (expected : TyClass)
  /-- An operand of an operator is a pointer. -/
  | pointerOperands (op : BinOp)
  /-- An operand of an operator is no number. -/
  | operandsNotNum (op : String)
  /-- An operand of an operator is no set of flags. -/
  | operandsNotBitmask (op : BinOp)
  /-- The operands of an operator are flags of different kinds. -/
  | bitmaskMismatch (op : BinOp)
  /-- A comparison has not just one operator. -/
  | chainedComparison
  /-- An operator is not in the language. -/
  | refusedOperator (op : CmpOp)
  /-- Values of different types are compared. -/
  | comparisonMismatch
  /-- What is called is no predicate. -/
  | notCallable
  /-- A predicate has the wrong number of arguments. -/
  | argumentCount
  /-- An argument of a predicate has the wrong type. -/
  | wrongArgument (name : String)
  /-- The receiver of a predicate has the wrong type. -/
  | wrongReceiver (name : String) (type : Ty)
  /-- A bit is looked for among flags of another kind. -/
  | bitMismatch
  /-- A member of something that is no structure. -/
  | memberOfOther
  /-- A structure has no such member. -/
  | noSuchMember (attr struct : String)
  /-- An index of several dimensions. -/
  | manyDimensions
  /-- An element of something that is no array. -/
  | subscriptNotArray
  /-- An index is no number. -/
  | indexNotNum
  /-- The index is asked of something that no loop visits. -/
  | notLoopVariable
  deriving DecidableEq, Repr

namespace Mistake

/-- The code of a mistake. -/
def code : Mistake → Code
  | noRequirement => .missingRequire
  | cascade | combinedAssignment | targetNotName | targetPredicate | targetParameter
  | targetToken => .invalidAssignTarget
  | rebound => .immutableRebind
  | pointerCondition _ | conditionNotBool _ => .nonBooleanCondition
  | iteratorNotArray => .notAnArray
  | loopElse | whileLoop | breakOut | nextRound | tuple | list | slice | chainedComparison
  | refusedOperator _ | manyDimensions => .unsupportedConstruct
  | choiceMismatch | pointerOperand _ | wrongOperand _ _ | pointerOperands _ | operandsNotNum _
  | operandsNotBitmask _ | bitmaskMismatch _ | comparisonMismatch | wrongArgument _ | bitMismatch
  | indexNotNum => .typeMismatch
  | unknownName _ => .unknownSymbol
  | argumentCount => .argumentCount
  | notCallable => .notCallable
  | memberOfOther | noSuchMember _ _ => .noSuchMember
  | subscriptNotArray => .invalidSubscript
  | notLoopVariable => .notALoopVariable
  | predicateAsValue _ | wrongReceiver _ _ => .predicateMisuse

/-- The message for a mistake. -/
def message : Mistake → String
  | noRequirement => "VUs must contain at least one require()"
  | cascade => "Cascaded assignments are not allowed"
  | combinedAssignment => "Augmented assignments are not allowed"
  | loopElse => "for loops cannot have an else clause"
  | whileLoop => "while loops are not allowed"
  | breakOut => "break is not allowed"
  | nextRound => "continue is not allowed"
  | targetNotName => "Assignment target must be a single variable"
  | targetPredicate => "Invalid assignment to builtin"
  | targetParameter => "Invalid assignment to VU parameter"
  | targetToken => "Invalid assignment to API token"
  | rebound => "Invalid reassignment.  VU variables are immutable"
  | iteratorNotArray => "Loop iterator must be an array"
  | pointerCondition context =>
    "Condition of " ++ context ++ " cannot be a pointer.  Use comparison with NULL"
  | conditionNotBool context => "Condition of " ++ context ++ " must be boolean"
  | choiceMismatch => "Mismatching types in conditional expression"
  | tuple => "Tuples are not allowed"
  | list => "Lists are not allowed"
  | slice => "Slices are not allowed"
  | predicateAsValue name => "Builtin " ++ name ++ " can only be called"
  | unknownName api =>
    "Unknown token is neither an API token, or a member or argument of " ++ api
  | pointerOperand op => "Operand of " ++ op.spelling ++ " cannot be a pointer"
  | wrongOperand op expected => "Operand of " ++ op.spelling ++ " must be " ++ expected.words
  | pointerOperands op => "Operands of " ++ op.spelling ++ " cannot be pointers"
  | operandsNotNum op => "Operands of " ++ op ++ " must be numbers"
  | operandsNotBitmask op => "Operands of " ++ op.spelling ++ " must be bitmasks"
  | bitmaskMismatch op => "Mismatching bitmask types in " ++ op.spelling
  | chainedComparison => "Only binary comparisons are allowed"
  | refusedOperator op => "Operator " ++ op.spelling ++ " is not allowed"
  | comparisonMismatch => "Mismatching types in comparison"
  | notCallable => "Invalid function call.  If a builtin was intended, it is misspelled"
  | argumentCount => "Invalid number of arguments passed to builtin"
  | wrongArgument name => "Invalid argument passed to " ++ name ++ "()"
  | wrongReceiver name type => name ++ "() cannot be used on " ++ type.display
  | bitMismatch => "Bit does not belong to the bitmask"
  | memberOfOther => "Invalid use of . on non-struct object"
  | noSuchMember attr struct => "No such attribute " ++ attr ++ " in struct " ++ struct
  | manyDimensions => "Multi-dimensional subscripts are not allowed"
  | subscriptNotArray => "Subscript only allowed on arrays"
  | indexNotNum => "Array index must be a number"
  | notLoopVariable => "array_index() can only be used on loop variables"

end Mistake

/-- A mistake at a place of a statement. -/
structure Issue where
  /-- What is wrong. -/
  mistake : Mistake
  /-- Where. -/
  pos : Pos
  /-- The source text at fault. -/
  fragment : Option (List Char)
  /-- Named details. -/
  details : List (String × String) := []
  deriving DecidableEq, Repr

namespace Issue

/-- A mistake of an expression. -/
def ofExpr (m : Mistake) (e : Expr) (details : List (String × String)) : Issue :=
  ⟨m, e.pos, some e.source, details⟩

/-- A mistake of a statement, shown by its first line. -/
def ofStmt (m : Mistake) (s : Stmt) : Issue :=
  ⟨m, s.pos, some (Text.trim ((Text.lines s.source).headD [])), []⟩

/-- A mistake of two expressions that do not go together, with their types. -/
def ofPair (m : Mistake) (a b : Expr) (ta tb : Ty) : Issue :=
  ⟨m, a.pos, some (a.source ++ " vs ".toList ++ b.source),
    [("left", ta.display), ("right", tb.display)]⟩

/-- The issue of a statement that requires nothing. -/
def noRequirement : Issue := ⟨.noRequirement, ⟨1, 1⟩, none, []⟩

/-- The issue of a statement about an API as a diagnostic. -/
def toDiagnostic (origin : Origin) (api : String) (i : Issue) : Diagnostic where
  id := i.mistake.code.id
  severity := .error
  message := i.mistake.message
  location := some (origin.locate i.pos)
  fragment := i.fragment.map String.ofList
  context := some (.ofList (("api", api) :: i.details))

end Issue
end ValidUsage
