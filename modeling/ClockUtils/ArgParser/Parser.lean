import ClockUtils.ArgParser.BasicVariable
import Mathlib.Logic.Function.Basic

namespace clockUtils.argParser

def dash : UInt8 := 45

/-- The static members of `Parser`. `arguments` points to one of the vectors in
memory, whose contents are `vectors`. -/
structure Parser where
  variableList : List BasicVariable
  error : Bytes
  errorOnFlag : Bool
  help : Bool
  arguments : Option Nat
  vectors : Nat → List Bytes

/-- How a turn of the loop in `parseArguments` ends: with `INVALID_USAGE`, or
with one or two arguments consumed. The keys of `parsed` go with it. -/
inductive Turn where
  | fail (p : Parser)
  | one (p : Parser) (parsed : List Bytes)
  | two (p : Parser) (parsed : List Bytes)

namespace Parser

/-- Whether a flag without its first dash names the variable. -/
def names (name : Bytes) (v : BasicVariable) : Bool :=
  name = dash :: v.longname ∨ name = v.shortname

/-- `bv` is the variable at this position. -/
def setVariable (p : Parser) (i : Nat) (v : BasicVariable) : Parser :=
  { p with variableList := p.variableList.set i v }

/-- `return ClockError::INVALID_USAGE` with `arguments` reset. -/
def reject (p : Parser) (error : Bytes) : Turn :=
  .fail { p with error := error, arguments := none }

/-- A value that is not allowed a second time: the variable is not `multiple`,
and was parsed before. -/
def isRepeated (v : BasicVariable) (parsed : List Bytes) : Bool :=
  !v.multiple && v.longname ∈ parsed

/-- A flag with the value in the next argument. `repeatedError` is the error
text when the variable must not be given again. -/
def valueTurn (p : Parser) (parsed : List Bytes) (name : Bytes) (i : Nat) (v : BasicVariable)
    (text repeatedError : Bytes) : Turn :=
  if (v.setValue text).1 = false then
    (p.setVariable i (v.setValue text).2).reject
      (text ++ literal " is not a valid value for variable " ++ name)
  else if isRepeated v parsed then (p.setVariable i (v.setValue text).2).reject repeatedError
  else .two (p.setVariable i (v.give text)) (v.longname :: parsed)

/-- The case `-b`: the result of `setValue("1")` is ignored, and a repetition
leaves the error text empty. -/
def boolTurn (p : Parser) (parsed : List Bytes) (i : Nat) (v : BasicVariable) : Turn :=
  if isRepeated v parsed then (p.setVariable i (v.setValue (literal "1")).2).reject p.error
  else .one (p.setVariable i (v.give (literal "1"))) (v.longname :: parsed)

/-- The flag of a registered variable. -/
def variableTurn (p : Parser) (parsed : List Bytes) (name : Bytes) (i : Nat) (v : BasicVariable)
    (next : Option Bytes) : Turn :=
  match v.isBool, next with
  | true, some text =>
    if text.head? ≠ some dash then p.valueTurn parsed name i v text p.error
    else p.boolTurn parsed i v
  | true, none => p.boolTurn parsed i v
  | false, some text =>
    p.valueTurn parsed name i v text
      (literal "variable " ++ name ++ literal " doesn't support multiple arguments")
  | false, none =>
    p.reject (name ++ literal " requires a value: -" ++ dash :: v.longname ++
      literal " <value> or -" ++ v.shortname ++ literal " <value>")

/-- `arguments->push_back(argv[0])`, if a vector is registered. -/
def argumentTurn (p : Parser) (parsed : List Bytes) (arg : Bytes) : Turn :=
  match p.arguments with
  | none => p.reject p.error
  | some vector =>
    .one { p with vectors := Function.update p.vectors vector (p.vectors vector ++ [arg]) } parsed

/-- A flag that names no variable. -/
def unknownTurn (p : Parser) (parsed : List Bytes) (name arg : Bytes) : Turn :=
  if name = literal "-help" ∨ name = literal "h" then .one { p with help := true } parsed
  else if p.errorOnFlag then
    p.reject (literal "argument -" ++ name ++ literal " not registered!")
  else p.argumentTurn parsed arg

/-- One turn of the loop, with the argument behind the current one. -/
def turn (p : Parser) (parsed : List Bytes) (arg : Bytes) (next : Option Bytes) : Turn :=
  if arg.head? = some dash ∧ 2 ≤ arg.length then
    match p.variableList.zipIdx.find? fun entry => names (arg.drop 1) entry.1 with
    | none => p.unknownTurn parsed (arg.drop 1) arg
    | some (v, i) => p.variableTurn parsed (arg.drop 1) i v next
  else if arg ≠ [] then p.argumentTurn parsed arg
  else .fail { p with error := literal "parsing empty string not possible!" }

/-- The check for required variables. Here a failure leaves `arguments`
registered. -/
def checkRequired (p : Parser) : ClockError × Parser :=
  match p.variableList.find? fun v => !p.help && v.required && !v.set with
  | some v =>
    (.INVALID_USAGE,
      { p with error := literal "Variable " ++ v.longname ++ literal " required, but not set." })
  | none => (.SUCCESS, { p with arguments := none })

def parseLoop (p : Parser) (parsed : List Bytes) : List Bytes → ClockError × Parser
  | [] => p.checkRequired
  | [arg] =>
    match p.turn parsed arg none with
    | .fail p => (.INVALID_USAGE, p)
    | .one p _ => p.checkRequired
    | .two p _ => p.checkRequired
  | arg :: next :: argv =>
    match p.turn parsed arg (some next) with
    | .fail p => (.INVALID_USAGE, p)
    | .one p parsed => p.parseLoop parsed (next :: argv)
    | .two p parsed => p.parseLoop parsed argv

/-- The state when the loop begins. -/
def reset (p : Parser) : Parser :=
  { p with
    variableList := p.variableList.map BasicVariable.resetToDefault
    error := []
    help := false }

def parseArguments (p : Parser) (argv : List Bytes) : ClockError × Parser :=
  p.reset.parseLoop [] argv

def getLastParserError (p : Parser) : Bytes :=
  p.error

def registerArgumentsVector (p : Parser) (args : Option Nat) : Parser :=
  { p with arguments := args }

end Parser

end clockUtils.argParser
