/-!
# Marks

A statement is laid out as a list of marks, which say what each piece of text is and where lines
break. A style spells the marks; every style spells the same marks, so what is laid out does not
depend on the style.
-/

namespace ValidUsage

/-- A piece of a laid out statement. -/
inductive Mark where
  /-- Text that is spelled as it is: blanks, commas, points, colons and names of members. -/
  | plain (text : String)
  /-- A word of a statement such as `if`. -/
  | keyword (word : String)
  /-- An operator, `and`, `or`, `not` and `in` included. -/
  | operator (spelling : String)
  /-- A number. -/
  | number (text : String)
  /-- `True`, `False`, `None` or a quoted text. -/
  | literal (text : String)
  /-- A name that stands for a value. -/
  | name (id : String)
  /-- A name that stands for a feature. -/
  | feature (id : String)
  /-- The name of a predicate that is called. -/
  | predicate (name : String)
  /-- A comment. -/
  | comment (text : String)
  /-- An opening parenthesis. -/
  | openParen
  /-- A closing parenthesis. -/
  | closeParen
  /-- An opening bracket. -/
  | openBracket
  /-- A closing bracket. -/
  | closeBracket
  /-- The end of a line, and the indentation of the next one. -/
  | lineBreak (indent : Nat)
  deriving DecidableEq, Repr

namespace Mark

/-- A blank between two pieces of a line. -/
def blank : Mark := plain " "

/-- What separates the values of a list. -/
def comma : Mark := plain ", "

/-- What ends the head of a block. -/
def colon : Mark := plain ":"

end Mark

/-- A way to spell marks. -/
structure Style where
  /-- What stands before the first statement. -/
  opening : String
  /-- What stands after the last statement. -/
  closing : String
  /-- The spelling of a mark. -/
  spell : Mark → List Char

/-- The text of marks. -/
def Style.text (style : Style) (marks : List Mark) : List Char := marks.flatMap style.spell

/-- The text of the marks of a whole statement of valid usage. -/
def Style.document (style : Style) (marks : List Mark) : List Char :=
  style.opening.toList ++ style.text marks ++ style.closing.toList

/-- The text of marks laid out one after the other is their texts one after the other. -/
theorem Style.text_append (style : Style) (ms ms' : List Mark) :
    style.text (ms ++ ms') = style.text ms ++ style.text ms' :=
  List.flatMap_append

end ValidUsage
