import ValidUsage.Text.Search

/-!
# Arguments on a command line

An option has a long name behind two dashes and may have a letter behind one dash; the letters of
several options may be written together. The value of an option follows an equals sign, or is the
next argument, which then must not look like an option. Two dashes alone end the options. The first
fault decides; what is missing or contradictory is found only after all arguments were read.
-/

namespace ValidUsage.CommandLine

/-- Why no command is run. -/
inductive Stop where
  /-- Help was asked for. -/
  | help
  /-- The version was asked for. -/
  | version
  /-- The arguments are refused. -/
  | misuse
  deriving DecidableEq, Repr

/-- What an option does. -/
inductive OptionEffect where
  /-- It says something by being there. -/
  | flag
  /-- It has a value. -/
  | value (accepts : String → Bool)
  /-- It ends the reading of arguments. -/
  | stop (s : Stop)

/-- An option that a command knows. -/
structure OptionRule where
  /-- The long name. -/
  name : String
  /-- The letter, if there is one. -/
  letter : Option Char := none
  /-- What it does. -/
  effect : OptionEffect
  /-- Whether it may be given several times. -/
  repeats : Bool := false

/-- What stands among the options. -/
inductive OperandRule where
  /-- The name of a command, behind which the arguments are those of the command. -/
  | command
  /-- One argument. -/
  | one
  /-- Nothing. -/
  | nothing
  deriving DecidableEq, Repr

/-- The arguments that are understood. -/
structure Grammar where
  /-- The options. -/
  options : List OptionRule
  /-- What stands among them. -/
  operands : OperandRule

/-- An option that was given. -/
structure Setting where
  /-- Its long name. -/
  name : String
  /-- Its value; nothing for a flag. -/
  value : String
  deriving DecidableEq, Repr

/-- Arguments that were understood. -/
structure Arguments where
  /-- The options, in the order in which they were given. -/
  settings : List Setting := []
  /-- The argument among them. -/
  operand : Option String := none
  /-- The name of a command with its arguments. -/
  command : Option (String × List String) := none
  deriving DecidableEq, Repr

namespace Arguments

/-- Whether an option was given. -/
def has (a : Arguments) (name : String) : Bool := a.settings.any (·.name == name)

/-- The values of an option, in the order in which they were given. -/
def values (a : Arguments) (name : String) : List String :=
  (a.settings.filter (·.name == name)).map (·.value)

/-- The value of an option that is given at most once. -/
def value? (a : Arguments) (name : String) : Option String := (a.values name).head?

/-- One more option. -/
def set (a : Arguments) (o : OptionRule) (value : String) : Except Stop Arguments :=
  if !o.repeats && a.has o.name then .error .misuse
  else .ok { a with settings := a.settings ++ [⟨o.name, value⟩] }

/-- One more option with its value. -/
def assign (a : Arguments) (o : OptionRule) (value : String) : Except Stop Arguments :=
  match o.effect with
  | .value accepts => if accepts value then a.set o value else .error .misuse
  | .flag | .stop _ => .error .misuse

/-- One more option without a value. -/
def raise (a : Arguments) (o : OptionRule) : Except Stop Arguments :=
  match o.effect with
  | .flag => a.set o ""
  | .value _ => .error .misuse
  | .stop s => .error s

/-- One more argument that is not an option. -/
def add (g : Grammar) (a : Arguments) (operand : String) : Except Stop Arguments :=
  if g.operands = .one ∧ a.operand = none then .ok { a with operand := some operand }
  else .error .misuse

/-- The options of a group of letters. -/
def raiseLetters (g : Grammar) (a : Arguments) (letters : List Char) : Except Stop Arguments :=
  letters.foldlM (fun a c => match g.options.find? (·.letter == some c) with
    | some o => a.raise o
    | none => .error .misuse) a

/-- Whether an argument can be a value, for which it must not look like an option. -/
def isValue (arg : String) : Bool :=
  match arg.toList with
  | '-' :: _ :: _ => false
  | _ => true

/-- The option of a long name. -/
def long (g : Grammar) (name : List Char) : Except Stop OptionRule :=
  match g.options.find? (·.name == String.ofList name) with
  | some o => .ok o
  | none => .error .misuse

/-- Read arguments behind those that were understood already. -/
def read (g : Grammar) (a : Arguments) : List String → Except Stop Arguments
  | [] => .ok a
  | arg :: args =>
    match arg.toList with
    | ['-', '-'] => args.foldlM (add g) a
    | '-' :: '-' :: name =>
      match Text.breakOn ['='] name with
      | some (name, value) => do
        read g (← a.assign (← long g name) (String.ofList value)) args
      | none => do
        let o ← long g name
        match o.effect with
        | .value _ =>
          match args with
          | [] => throw .misuse
          | value :: args =>
            if isValue value then read g (← a.assign o value) args else throw .misuse
        | .flag | .stop _ => read g (← a.raise o) args
    | '-' :: c :: cs => do read g (← a.raiseLetters g (c :: cs)) args
    | _ =>
      if g.operands = .command then .ok { a with command := some (arg, args) }
      else do read g (← a.add g arg) args

end Arguments
end ValidUsage.CommandLine
