import ValidUsage.Syntax.Tree

/-!
# Spellings

How operators, keywords and literals are spelled in the text of a statement, and the words by which
a tree names its operators when it is exchanged as JSON.
-/

namespace ValidUsage

/-- The spelling of an operator that joins conditions. -/
def BoolOp.spelling : BoolOp → String
  | .and => "and"
  | .or => "or"

/-- The spelling of an operator on two operands. -/
def BinOp.spelling : BinOp → String
  | .add => "+"
  | .sub => "-"
  | .mult => "*"
  | .div => "/"
  | .floorDiv => "//"
  | .mod => "%"
  | .pow => "**"
  | .matMult => "@"
  | .lShift => "<<"
  | .rShift => ">>"
  | .bitOr => "|"
  | .bitXor => "^"
  | .bitAnd => "&"

/-- The spelling of an operator in front of its operand. -/
def UnaryOp.spelling : UnaryOp → String
  | .not => "not"
  | .invert => "~"
  | .plus => "+"
  | .minus => "-"

/-- The spelling of an operator of a comparison. -/
def CmpOp.spelling : CmpOp → String
  | .eq => "=="
  | .notEq => "!="
  | .lt => "<"
  | .ltE => "<="
  | .gt => ">"
  | .gtE => ">="
  | .is => "is"
  | .isNot => "is not"
  | .isIn => "in"
  | .notIn => "not in"

/-- The operators that an assignment may be combined with. -/
def BinOp.all : List BinOp :=
  [.add, .sub, .mult, .div, .floorDiv, .mod, .pow, .matMult, .lShift, .rShift, .bitOr, .bitXor,
   .bitAnd]

/-- Words that cannot be names. -/
def keywords : List String :=
  ["False", "None", "True", "and", "as", "assert", "async", "await", "break", "class", "continue",
   "def", "del", "elif", "else", "except", "finally", "for", "from", "global", "if", "import", "in",
   "is", "lambda", "nonlocal", "not", "or", "pass", "raise", "return", "try", "while", "with",
   "yield"]

/-- Whether a word cannot be a name. -/
def isKeyword (word : String) : Bool := keywords.contains word

end ValidUsage
