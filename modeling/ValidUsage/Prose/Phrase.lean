import ValidUsage.Layout.Markup
import ValidUsage.Layout.Source
import ValidUsage.Text.Blank

/-!
# Conditions in words

A phrase says of a subject that something holds or does not hold, as a fact (`is`) or as a demand
(`must: be`). How a condition is phrased depends on whether it is expected to hold; a comparison
that is expected to fail is phrased with the opposite operator.
-/

namespace ValidUsage

/-- How a condition is put into words. -/
structure Phrasing where
  /-- Whether the condition is expected to hold. -/
  expectTrue : Bool
  /-- Whether it is demanded and not only stated. -/
  must : Bool
  deriving DecidableEq, Repr

namespace Phrasing

/-- The phrasing of the test of an `if`. -/
def test : Phrasing := ⟨true, false⟩

/-- The phrasing of what a statement requires. -/
def demand : Phrasing := ⟨true, true⟩

/-- The phrasing of the opposite. -/
def negated (p : Phrasing) : Phrasing := { p with expectTrue := !p.expectTrue }

/-- The phrasing of a fact of the same expectation. -/
def relaxed (p : Phrasing) : Phrasing := { p with must := false }

end Phrasing

/-- What a phrase says of its subject, apart from its object. -/
inductive Verb where
  /-- It is something. -/
  | be
  /-- It has something. -/
  | possess
  /-- It includes something. -/
  | include
  /-- It is not less than something. -/
  | beAtLeast
  /-- It is a condition that holds. -/
  | beTrue
  deriving DecidableEq, Repr

/-- The words of a verb. -/
def Verb.words (v : Verb) (p : Phrasing) : String :=
  match v, p.must, p.expectTrue with
  | be, false, true => "is"
  | be, false, false => "is not"
  | be, true, true => "must: be"
  | be, true, false => "must: not be"
  | .possess, false, true => "has"
  | .possess, false, false => "does not have"
  | .possess, true, true => "must: have"
  | .possess, true, false => "must: not have"
  | .include, false, true => "includes"
  | .include, false, false => "does not include"
  | .include, true, true => "must: include"
  | .include, true, false => "must: not include"
  | beAtLeast, false, true => "is at least"
  | beAtLeast, false, false => "is less than"
  | beAtLeast, true, true => "must: be at least"
  | beAtLeast, true, false => "must: be less than"
  | beTrue, false, true => "is true"
  | beTrue, false, false => "is false"
  | beTrue, true, true => "must: be true"
  | beTrue, true, false => "must: be false"

/-- How two values stand to one another. -/
inductive Relation where
  | equal
  | less
  | lessOrEqual
  | greater
  | greaterOrEqual
  deriving DecidableEq, Repr

/-- The words of a relation. -/
def Relation.words : Relation → String
  | equal => "equal to"
  | less => "less than"
  | lessOrEqual => "less than or equal to"
  | greater => "greater than"
  | greaterOrEqual => "greater than or equal to"

/-- The operator that holds when another does not. -/
def CmpOp.opposite? : CmpOp → Option CmpOp
  | .eq => some .notEq
  | .notEq => some .eq
  | .lt => some .gtE
  | .gtE => some .lt
  | .ltE => some .gt
  | .gt => some .ltE
  | _ => none

/-- The relation that an operator states, and whether it states that the relation holds. -/
def CmpOp.relation? : CmpOp → Option (Relation × Bool)
  | .eq => some (.equal, true)
  | .notEq => some (.equal, false)
  | .lt => some (.less, true)
  | .ltE => some (.lessOrEqual, true)
  | .gt => some (.greater, true)
  | .gtE => some (.greaterOrEqual, true)
  | _ => none

/-- Whether an operator between a value and `NULL` states that the value is `NULL`. -/
def CmpOp.isNull? : CmpOp → Option Bool
  | .eq | .is => some true
  | .notEq | .isNot => some false
  | _ => none

/-- What a phrase says of its subject, apart from the words behind. -/
inductive Predication where
  /-- It stands in a relation to something. -/
  | related (relation : Relation)
  /-- Something else. -/
  | verb (verb : Verb)
  deriving DecidableEq, Repr

/-- The words of a predication. -/
def Predication.words (p : Phrasing) : Predication → String
  | related r => Verb.be.words p ++ " " ++ r.words
  | verb v => v.words p

/-- A piece of a phrase. -/
inductive Piece where
  /-- Words that are the same whatever the operands are. -/
  | fixed (text : String)
  /-- The words of an operand. -/
  | operand (text : String)
  deriving DecidableEq, Repr

namespace Piece

/-- The text of a piece. -/
def text : Piece → String
  | fixed t | operand t => t

@[simp]
theorem text_fixed (t : String) : (fixed t).text = t := rfl

@[simp]
theorem text_operand (t : String) : (operand t).text = t := rfl

/-- The words of an operand, if a piece has them. -/
def operand? : Piece → Option String
  | fixed _ => none
  | operand t => some t

/-- The words of pieces, one after the other. -/
def words : List Piece → String
  | [] => ""
  | q :: qs => q.text ++ words qs

end Piece

/-- What is said of a subject. -/
structure Saying where
  /-- What is said. -/
  predication : Predication
  /-- Whether it is said that this holds, and whether it is demanded. -/
  phrasing : Phrasing
  /-- What stands behind. -/
  behind : List Piece
  deriving DecidableEq, Repr

/-- The words of what is said. -/
def Saying.words (x : Saying) : String := x.predication.words x.phrasing ++ Piece.words x.behind

namespace Phrasing

/-- What a comparison says of its left operand, without the right one. -/
def relation? (p : Phrasing) (op : CmpOp) : Option Saying :=
  ((if p.expectTrue then some op else op.opposite?).bind CmpOp.relation?).map fun (r, holds) =>
    ⟨.related r, ⟨holds, p.must⟩, []⟩

/-- The name `NULL` as it is quoted. -/
def quotedNull : String := "`NULL`"

/-- What a comparison with `NULL` says of its left operand. -/
def null? (p : Phrasing) (op : CmpOp) : Option Saying :=
  op.isNull?.map fun isNull =>
    ⟨.verb .be, ⟨isNull == p.expectTrue, p.must⟩, [.fixed " ", .operand quotedNull]⟩

/-- Whether all of some conditions hold and not only any of them, when they are joined by an
operator and the whole is phrased so. -/
def ofAll (p : Phrasing) (op : BoolOp) : Bool := (op == .and) == p.expectTrue

/-- The words that introduce the conditions that an operator joins. -/
def quantifier (p : Phrasing) (op : BoolOp) : String :=
  (if p.ofAll op then "all" else "any") ++ " of the following " ++
    (if p.must then "must: be true" else "are true") ++ ":"

end Phrasing

/-- A condition in words. -/
structure Phrase where
  /-- What it is about. -/
  subject : List Piece
  /-- What it says of it. -/
  saying : Saying
  deriving DecidableEq, Repr

namespace Phrase

/-- The words of a phrase. -/
def words (p : Phrase) : String := Piece.words p.subject ++ " " ++ p.saying.words

/-- The words of the operands that a phrase names, in their order. -/
def operands (p : Phrase) : List String := (p.subject ++ p.saying.behind).filterMap Piece.operand?

end Phrase

namespace Prose

/-- A text on one line, without the indentation of its lines. -/
def flatten (s : List Char) : List Char := Text.join [' '] ((Text.lines s).map Text.trim)

/-- A text as code on one line. -/
def code (s : List Char) : String := "`" ++ String.ofList (flatten s) ++ "`"

/-- An operand in words: a link for a name, a whole number as it is, and else its source text. -/
def operand (s : Subject) : Expr → String
  | .name _ id =>
    if id = "NULL" then Phrasing.quotedNull else (Markup.link? s id).getD ("pname:" ++ id)
  | .const _ (.int n) => toString n
  | e => code e.source

/-- An operand as a piece of a phrase. -/
def named (s : Subject) (e : Expr) : Piece := .operand (operand s e)

/-- A phrase of a verb with what stands behind it. -/
def saying (subject : List Piece) (verb : Verb) (behind : List Piece) (p : Phrasing) :
    Option Phrase :=
  some ⟨subject, .verb verb, p, behind⟩

/-- The phrase of a predicate that is called by its name. -/
def callPhrase? (s : Subject) (q : Predicate) (args : List Expr) (p : Phrasing) : Option Phrase :=
  match q, args with
  | .isExtEnabled, [.name _ id] =>
    saying [.fixed "the ", .operand ("apiext:" ++ id), .fixed " extension"] .be
      [.fixed " enabled"] p
  | .isFeatureEnabled, [.name _ id] =>
    saying [.fixed "the ", .operand (Markup.featureLink id), .fixed " feature"] .be
      [.fixed " enabled"] p
  | .isVersion, [.const q (.int major), .const r (.int minor)] =>
    saying [.fixed "the API version"] .beAtLeast
      [.fixed " ", named s (.const q (.int major)), .fixed ".", named s (.const r (.int minor))] p
  | .hasPnext, [e] =>
    saying [.fixed "the pname:pNext chain"] .include
      [.fixed " a ", named s e, .fixed " structure"] p
  | .externallySynchronized, [e] => saying [named s e] .be [.fixed " externally synchronized"] p
  | _, _ => none

/-- The phrase of a predicate that is called on a receiver. -/
def methodPhrase? (s : Subject) (receiver : Expr) (m : Method) (args : List Expr) (p : Phrasing) :
    Option Phrase :=
  match m, args with
  | .valid, [] => saying [named s receiver] .be [.fixed " a valid handle"] p
  | .hasBit, [e] => saying [named s receiver] .include [.fixed " ", named s e] p
  | .hasPnext, [e] =>
    saying [.fixed "the pname:pNext chain of ", named s receiver] .include
      [.fixed " a ", named s e, .fixed " structure"] p
  | .any, [] => saying [named s receiver] .possess [.fixed " at least one bit set"] p
  | .none, [] => saying [named s receiver] .possess [.fixed " at least one bit set"] p.negated
  | _, _ => none

/-- The phrase of a comparison or of a call of a predicate, if there is one. -/
def knownPhrase? (s : Subject) (p : Phrasing) : Expr → Option Phrase
  | .compare _ left [op] [right] =>
    if right.name? = some "NULL" then do return ⟨[named s left], ← p.null? op⟩
    else do
      let said ← p.relation? op
      return ⟨[named s left], { said with behind := [.fixed " ", named s right] }⟩
  | .call _ (.name _ id) args => do callPhrase? s (← Predicate.ofName? id) args p
  | .call _ (.member _ receiver attr) args => do
    methodPhrase? s receiver (← Method.ofName? attr) args p
  | _ => none

/-- The phrase of a condition that is neither a negation nor joined of others. -/
def phrase (s : Subject) (p : Phrasing) (e : Expr) : Phrase :=
  (knownPhrase? s p e).getD ⟨[named s e], .verb .beTrue, p, []⟩

end Prose
end ValidUsage
