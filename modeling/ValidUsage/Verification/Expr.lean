import ValidUsage.Types.Matching
import ValidUsage.Verification.Checked

/-!
# Checking expressions

Every expression has a type. One that cannot be typed has the type `unknown`, which passes all the
checks that follow.
-/

namespace ValidUsage

/-- The type of a call with the wrong number of arguments: a structure cannot be named then. -/
def Signature.resultOfMiscount (sig : Signature) : Ty :=
  if sig.result.cls = .struct then .unknown else sig.result

/-- The class of the operand of an operator. -/
def UnaryOp.operandClass : UnaryOp → TyClass
  | .not => .bool
  | .invert => .bitmask
  | .plus | .minus => .num

/-- The type that an operator gives. -/
def UnaryOp.result : UnaryOp → Ty
  | .not => .bool
  | .invert => .bitmask
  | .plus | .minus => .num

/-- Operators on sets of flags. -/
def BinOp.isBitwise (op : BinOp) : Bool := op == .bitOr || op == .bitXor || op == .bitAnd

/-- The type that an operator gives when its operands do not tell. -/
def BinOp.result (op : BinOp) : Ty := if op.isBitwise then .bitmask else .num

/-- Comparisons that are read but are not in the language. -/
def CmpOp.isRefused (op : CmpOp) : Bool :=
  op == .is || op == .isNot || op == .isIn || op == .notIn

/-- Comparisons for equality. -/
def CmpOp.isEquality (op : CmpOp) : Bool := op == .eq || op == .notEq

namespace Verification

/-- Judge the type of a condition. -/
def judgeCondition (context : String) (e : Expr) (t : Ty) : Checked Unit :=
  if t.isUnknown then pure ()
  else if t.isPointer then .mistake (.pointerCondition context) e
  else .reportIf (t.cls != .bool) (.ofExpr (.conditionNotBool context) e [])

/-- The type of a name. -/
def typeOfName (s : Subject) (scope : Scope) (e : Expr) (id : String) : Checked Ty :=
  if isPredicateName id then .untyped (.predicateAsValue id) e
  else match scope.find? id with
    | some b => pure b.type
    | none => match s.nameType? id with
      | some t => pure t
      | none => .untyped (.unknownName s.api) e

/-- The type of an operation on an operand. -/
def typeOfUnary (op : UnaryOp) (operand : Expr) (t : Ty) : Checked Ty :=
  if t.isUnknown then pure op.result
  else if t.isPointer then do
    .mistake (.pointerOperand op) operand
    return op.result
  else if t.cls ≠ op.operandClass then do
    .mistake (.wrongOperand op op.operandClass) operand
    return op.result
  else pure (if op = .invert then t else op.result)

/-- Whether a value is a set of flags or a single one. -/
def isFlagsType (t : Ty) : Bool := t.cls == .bitmask || t.cls == .enum

/-- The type of an operation on two operands. -/
def typeOfBinary (s : Subject) (left right : Expr) (op : BinOp) (l r : Ty) : Checked Ty :=
  if l.isUnknown || r.isUnknown then pure op.result
  else if l.isPointer || r.isPointer then do
    .report (.ofPair (.pointerOperands op) left right l r)
    return op.result
  else if !op.isBitwise then do
    .reportIf (l.cls != .num || r.cls != .num)
      (.ofPair (.operandsNotNum op.spelling) left right l r)
    return .num
  else do
    if !isFlagsType l || !isFlagsType r then
      .report (.ofPair (.operandsNotBitmask op) left right l r)
    else
      .reportIf (!s.registry.enumsMatch l r) (.ofPair (.bitmaskMismatch op) left right l r)
    return if l.cls = .bitmask then l else if r.cls = .bitmask then r else op.result

/-- Judge the types of two values that are compared. -/
def judgeComparison (s : Subject) (e left right : Expr) (op : CmpOp) (l r : Ty) : Checked Unit :=
  if op.isRefused then .mistake (.refusedOperator op) e
  else if l.isUnknown || r.isUnknown then pure ()
  else if op.isEquality then
    .reportIf (!s.registry.typesMatch true l r) (.ofPair .comparisonMismatch left right l r)
  else
    let numeric (t : Ty) : Bool := t.cls == .num && !t.isPointer
    .reportIf (!numeric l || !numeric r) (.ofPair (.operandsNotNum op.spelling) left right l r)

/-- Judge the types of the values of a comparison, which may have just one operator. -/
def judgeComparisons (s : Subject) (e left : Expr) (ops : List CmpOp) (comparators : List Expr)
    (l : Ty) (rs : List Ty) : Checked Unit :=
  match ops, comparators, rs with
  | [op], [right], [r] => judgeComparison s e left right op l r
  | _, _, _ => .mistake .chainedComparison e

/-- The type of a choice between two values. -/
def typeOfChoice (s : Subject) (body orelse : Expr) (b o : Ty) : Checked Ty :=
  if b.isUnknown then pure o
  else if o.isUnknown then pure b
  else do
    .reportIf (!s.registry.typesMatch true b o) (.ofPair .choiceMismatch body orelse b o)
    return if o.cls = .bitmask ∧ b.cls ≠ .bitmask then o else b

/-- The type of a member. -/
def typeOfMember (s : Subject) (e : Expr) (attr : String) (receiver : Ty) : Checked Ty :=
  let object := receiver.dereferenced
  if object.isUnknown then pure object
  else if isPredicateName attr then .untyped (.predicateAsValue attr) e
  else if object.cls ≠ .struct ∨ object.name.isEmpty then .untyped .memberOfOther e
  else match s.registry.memberType? object.name attr with
    | some t => pure t
    | none => .untyped (.noSuchMember attr object.name) e

/-- The type of an element. -/
def typeOfElement (value index : Expr) (array i : Ty) : Checked Ty :=
  if array.isUnknown then pure array
  else if !array.isArray then .untyped .subscriptNotArray value
  else do
    .reportIf (!i.isUnknown && (i.isPointer || i.cls != .num)) (.ofExpr .indexNotNum index [])
    return array.indexed

/-- What is wrong with an index that is no single value. -/
def refusedIndex? : Expr → Option Mistake
  | .tuple .. => some .manyDimensions
  | .slice .. => some .slice
  | _ => none

/-- Judge the number of the arguments of a predicate. -/
def judgeCount (sig : Signature) (e : Expr) (count : Nat) : Checked Unit :=
  .reportIf (count != sig.args.length) (.ofExpr .argumentCount e
    [("expected", toString sig.args.length), ("found", toString count)])

/-- Judge the type of an argument of a predicate. -/
def judgeArgument (s : Subject) (name : String) (declared : Ty) (arg : Expr) (t : Ty) :
    Checked Unit :=
  .reportIf (!t.isUnknown && !s.registry.accepts declared t)
    (.ofExpr (.wrongArgument name) arg [("expected", declared.display), ("found", t.display)])

/-- Judge the only argument of `array_index`. -/
def judgeLoopVariable (scope : Scope) : List Expr → Checked Unit
  | arg :: _ =>
    .reportIf (!arg.name?.any scope.isLoopVariable) (.ofExpr .notLoopVariable arg [])
  | [] => pure ()

/-- The type that a predicate gives that is called by its name. -/
def typeOfCall (q : Predicate) (args : List Expr) : Ty :=
  match q, args.head?.bind Expr.name? with
  | .pnext, some name => .struct name
  | .pnext, none => .unknown
  | _, _ => q.signature.result

/-- Judge the type of the receiver of a predicate. -/
def judgeReceiver (s : Subject) (m : Method) (receiver : Expr) (t : Ty) : Checked Unit :=
  match m.signature.object with
  | some declared =>
    .reportIf (!t.isUnknown && !s.registry.typesMatch false declared t)
      (.ofExpr (.wrongReceiver m.name t) receiver [])
  | none => pure ()

/-- Judge whether a bit can be among the flags of the receiver. -/
def judgeBit (s : Subject) (m : Method) (receiver : Expr) (args : List Expr) (t : Ty)
    (ts : List Ty) : Checked Unit :=
  match m, args, ts with
  | .hasBit, [arg], [bit] =>
    .reportIf (!t.isUnknown && t.cls == .bitmask && bit.cls == .enum &&
        !s.registry.enumsMatch t bit)
      (.ofPair .bitMismatch receiver arg t bit)
  | _, _, _ => pure ()

/-- The type that a predicate gives that is called on a receiver. -/
def typeOfMethod (m : Method) (args : List Expr) (t : Ty) : Ty :=
  match m.returnedStruct? t.name (args.head?.bind Expr.name?) with
  | some name => if !t.isUnknown || m == .pnext then .struct name else .unknown
  | none => m.signature.result

mutual

/-- The type of an expression. -/
def checkExpr (s : Subject) (scope : Scope) : Expr → Checked Ty
  | .boolOp p op values => .typed (.boolOp p op values) do
    checkConditions s scope (op.spelling ++ " operand") values
    return .bool
  | .binary p left op right => .typed (.binary p left op right) do
    let l ← checkExpr s scope left
    let r ← checkExpr s scope right
    typeOfBinary s left right op l r
  | .unary p op operand => .typed (.unary p op operand) do
    let t ← checkExpr s scope operand
    typeOfUnary op operand t
  | .compare p left ops comparators => .typed (.compare p left ops comparators) do
    let l ← checkExpr s scope left
    let rs ← checkAll s scope comparators
    judgeComparisons s (.compare p left ops comparators) left ops comparators l rs
    return .bool
  | .call p (.name q id) args => .typed (.call p (.name q id) args) <|
    match Predicate.ofName? id with
    | none => do
      let _ ← checkAll s scope args
      .untyped .notCallable (.call p (.name q id) args)
    | some pred => do
      if pred = .require then .countRequirement else pure ()
      judgeCount pred.signature (.call p (.name q id) args) args.length
      if args.length ≠ pred.signature.args.length then do
        let _ ← checkAll s scope args
        return pred.signature.resultOfMiscount
      else if pred = .arrayIndex then do
        judgeLoopVariable scope args
        return typeOfCall pred args
      else if pred = .textMacro then return typeOfCall pred args
      else do
        let _ ← checkArguments s scope pred.name pred.signature.args args
        return typeOfCall pred args
  | .call p (.member q receiver attr) args => .typed (.call p (.member q receiver attr) args) <|
    match Method.ofName? attr with
    | none => do
      let _ ← checkExpr s scope receiver
      let _ ← checkAll s scope args
      .untyped .notCallable (.call p (.member q receiver attr) args)
    | some m => do
      let r ← checkExpr s scope receiver
      judgeReceiver s m receiver r.dereferenced
      judgeCount m.signature (.call p (.member q receiver attr) args) args.length
      if args.length ≠ m.signature.args.length then do
        let _ ← checkAll s scope args
        return m.signature.resultOfMiscount
      else do
        let ts ← checkArguments s scope m.name m.signature.args args
        judgeBit s m receiver args r.dereferenced ts
        return typeOfMethod m args r.dereferenced
  | .call p func args => .typed (.call p func args) do
    let _ ← checkAll s scope args
    .untyped .notCallable (.call p func args)
  | .member p value attr => .typed (.member p value attr) do
    let t ← checkExpr s scope value
    typeOfMember s (.member p value attr) attr t
  | .subscript p value index => .typed (.subscript p value index) <|
    match refusedIndex? index with
    | some m => do
      .mistake m index
      let _ ← checkExpr s scope value
      return .unknown
    | none => do
      let array ← checkExpr s scope value
      let i ← checkExpr s scope index
      typeOfElement value index array i
  | .ifExp p test body orelse => .typed (.ifExp p test body orelse) do
    let t ← checkExpr s scope test
    judgeCondition "conditional expression" test t
    let b ← checkExpr s scope body
    let o ← checkExpr s scope orelse
    typeOfChoice s body orelse b o
  | .name p id => .typed (.name p id) (typeOfName s scope (.name p id) id)
  | .const p value => .typed (.const p value) <| pure <| match value with
    | .bool _ => .bool
    | _ => .num
  | .tuple p elts => .typed (.tuple p elts) (.untyped .tuple (.tuple p elts))
  | .list p elts => .typed (.list p elts) (.untyped .list (.list p elts))
  | .slice p lower upper step =>
    .typed (.slice p lower upper step) (.untyped .slice (.slice p lower upper step))

/-- The types of expressions, one after the other. -/
def checkAll (s : Subject) (scope : Scope) : List Expr → Checked (List Ty)
  | [] => pure []
  | e :: es => do
    let t ← checkExpr s scope e
    let ts ← checkAll s scope es
    return t :: ts

/-- The types of the arguments of a predicate. -/
def checkArguments (s : Subject) (scope : Scope) (name : String) :
    List Ty → List Expr → Checked (List Ty)
  | declared :: ds, e :: es => do
    let t ← checkExpr s scope e
    judgeArgument s name declared e t
    let ts ← checkArguments s scope name ds es
    return t :: ts
  | _, _ => pure []

/-- Check conditions, one after the other. -/
def checkConditions (s : Subject) (scope : Scope) (context : String) : List Expr → Checked Unit
  | [] => pure ()
  | e :: es => do
    let t ← checkExpr s scope e
    judgeCondition context e t
    checkConditions s scope context es

end

end Verification
end ValidUsage
