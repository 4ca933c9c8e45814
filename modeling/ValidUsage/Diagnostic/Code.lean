/-!
# Codes of findings

Every finding carries a code. `VU1` codes are about reading a statement and expanding its macros,
`VU2` codes about its meaning, `VU3` codes are advice from building it, and `VU4` codes are internal
checks.
-/

namespace ValidUsage

/-- What a finding is about. -/
inductive Code where
  /-- The text of a statement cannot be read. -/
  | syntaxError
  /-- A reference names a macro that has no definition. -/
  | macroUndefined
  /-- The text in which macros were replaced cannot be read. -/
  | macroParse
  /-- A statement requires nothing. -/
  | missingRequire
  /-- An assignment binds something other than one new local name. -/
  | invalidAssignTarget
  /-- A local name is bound while a binding of it is visible. -/
  | immutableRebind
  /-- A condition is not a boolean, or is a pointer to one. -/
  | nonBooleanCondition
  /-- A loop runs over something other than an array of known length. -/
  | notAnArray
  /-- The grammar admits the construct, the statement language does not. -/
  | unsupportedConstruct
  /-- The types of operands or arguments do not fit together. -/
  | typeMismatch
  /-- A name is neither a local, nor a member of the subject, nor an API token. -/
  | unknownSymbol
  /-- A predicate has the wrong number of arguments. -/
  | argumentCount
  /-- Something other than a predicate is called. -/
  | notCallable
  /-- A structure has no member of that name. -/
  | noSuchMember
  /-- Something other than an array is subscripted, or the index is no number. -/
  | invalidSubscript
  /-- The index is asked of something other than a loop variable. -/
  | notALoopVariable
  /-- The name of a predicate stands for a value, or its object has the wrong type. -/
  | predicateMisuse
  /-- A requirement is constantly false in a build. -/
  | requireFalse
  /-- Part of a statement can matter in no build. -/
  | deadCode
  /-- A rendering does not read back as the statement that it renders. -/
  | internalRoundTrip
  deriving DecidableEq, Repr

namespace Code

/-- The code as it is shown. -/
def id : Code → String
  | .syntaxError => "VU1001"
  | .macroUndefined => "VU1002"
  | .macroParse => "VU1003"
  | .missingRequire => "VU2001"
  | .invalidAssignTarget => "VU2002"
  | .immutableRebind => "VU2003"
  | .nonBooleanCondition => "VU2004"
  | .notAnArray => "VU2005"
  | .unsupportedConstruct => "VU2006"
  | .typeMismatch => "VU2007"
  | .unknownSymbol => "VU2008"
  | .argumentCount => "VU2009"
  | .notCallable => "VU2010"
  | .noSuchMember => "VU2011"
  | .invalidSubscript => "VU2012"
  | .notALoopVariable => "VU2013"
  | .predicateMisuse => "VU2014"
  | .requireFalse => "VU3001"
  | .deadCode => "VU3002"
  | .internalRoundTrip => "VU4001"

/-- Every code, in the order of the catalogue. -/
def all : List Code :=
  [.syntaxError, .macroUndefined, .macroParse, .missingRequire, .invalidAssignTarget,
   .immutableRebind, .nonBooleanCondition, .notAnArray, .unsupportedConstruct, .typeMismatch,
   .unknownSymbol, .argumentCount, .notCallable, .noSuchMember, .invalidSubscript,
   .notALoopVariable, .predicateMisuse, .requireFalse, .deadCode, .internalRoundTrip]

/-- What a code means, in the words shown to authors. -/
def explanation : Code → String
  | .syntaxError =>
    "The VU text could not be parsed. VUs use a small Python-shaped grammar: assignments, " ++
      "if/elif/else, for loops, pass and expression statements. Check for documentation " ++
      "markup (such as ename: or pname:) left inside the expression."
  | .macroUndefined =>
    "A macro(name) reference was used before any `:name: value` definition line appeared " ++
      "earlier in the document."
  | .macroParse =>
    "After substituting macro values into the VU, the resulting text is no longer valid " ++
      "VU syntax. Check the macro's definition value."
  | .missingRequire =>
    "Every codified VU must state at least one require() condition; a VU with no " ++
      "requirement asserts nothing."
  | .invalidAssignTarget =>
    "Assignments bind exactly one new local name. Cascaded assignments, tuple targets, " ++
      "attribute targets, and assignments to API tokens, VU parameters or predicates are " ++
      "rejected."
  | .immutableRebind =>
    "VU variables are immutable: a name may be bound once per scope and may not shadow a " ++
      "variable from an enclosing scope."
  | .nonBooleanCondition =>
    "Conditions of if statements, conditional expressions and boolean operators must be " ++
      "booleans. Pointers must be compared with NULL explicitly."
  | .notAnArray =>
    "A for loop may only iterate over an array: a pointer or fixed-size member with a " ++
      "known length."
  | .unsupportedConstruct =>
    "The construct parses but is not part of the VU language: while loops, break, " ++
      "continue, for-else, chained comparisons, is/in operators, tuple or slice subscripts."
  | .typeMismatch =>
    "The operand or argument types are incompatible, for example comparing an enum with a " ++
      "handle, or applying arithmetic to a bitmask."
  | .unknownSymbol =>
    "The name is neither a VU variable, a member or parameter of the documented API, nor " ++
      "a known API token."
  | .argumentCount =>
    "The predicate was called with the wrong number of arguments."
  | .notCallable =>
    "Only the built-in predicates may be called. If a predicate was intended, it is " ++
      "misspelled."
  | .noSuchMember =>
    "The attribute does not exist on the receiving struct, or the receiver is not a " ++
      "struct."
  | .invalidSubscript =>
    "Subscripts are only allowed on arrays and must use a single numeric, non-pointer " ++
      "index."
  | .notALoopVariable =>
    "array_index() may only be applied to a for loop variable."
  | .predicateMisuse =>
    "A predicate name was used as a plain value, or a predicate was applied to an object " ++
      "of the wrong type."
  | .requireFalse =>
    "After build stripping, a require() condition is constant False. This hurts VU " ++
      "readability; invert the VU logic instead."
  | .deadCode =>
    "Part of the VU is removed even when every version and extension is enabled, so it " ++
      "can never apply."
  | .internalRoundTrip =>
    "A formatter produced text that does not parse back to the same VU. This is a defect " ++
      "in the toolchain, not in the input."

/-- The code that is shown as a text. -/
def ofId? (id : String) : Option Code := all.find? fun c => c.id == id

/-- The explanation of the code that is shown as a text. -/
def explain? (id : String) : Option String := (ofId? id).map explanation

end Code
end ValidUsage
