import Cddl.Text
/-!
# Command lines

A command line is a command's name, operands and options, in any order as long as the name is the first operand.  An
option's value is the next argument, or follows `=` after a long option, or follows a short one directly.  After `--`
everything is an operand.  Of an option that is given twice the last value counts, and operands that no command asks for
are passed over.
-/
namespace Cddl

inductive Command where
  /-- Shows the version. -/
  | version
  /-- Lists the rules of a schema, or writes its tree down. -/
  | parse (file : Text) (output : Option Text) (json indented : Bool)
  /-- Reports what is wrong with schemas. -/
  | check (paths : List Text) (failFast json : Bool)
  /-- Lists the nodes of a schema with their parents and children. -/
  | parents (file : Text) (kind : Option Text) (json : Bool)
  deriving DecidableEq, Repr

/-- Why a command line asks for nothing that can be done. -/
inductive UsageFault where
  | noCommand
  | unknownCommand (name : Text)
  | unknownOption (option : Text)
  | missingValue (option : Text)
  | missingOperand (command : Text)
  deriving DecidableEq, Repr

def UsageFault.message : UsageFault → Text
  | .noCommand => "error: missing command"
  | .unknownCommand name => "error: unknown command '" ++ name ++ "'"
  | .unknownOption option => "error: unknown option '" ++ option ++ "'"
  | .missingValue option => "error: option '" ++ option ++ "' argument missing"
  | .missingOperand command => "error: missing required argument of '" ++ command ++ "'"

/-! ## Options -/

structure OptionSpec where
  short : Option Text := none
  long : Text
  takesValue : Bool := false

/-- Options and operands as they were found on a command line. -/
structure Parsed where
  operands : List Text := []
  /-- The long names of the options, with their values, in order. -/
  options : List (Text × Text) := []

namespace Parsed

def addOperands (p : Parsed) (operands : List Text) : Parsed := { p with operands := operands ++ p.operands }

def addOption (p : Parsed) (spec : OptionSpec) (value : Text) : Parsed :=
  { p with options := (spec.long, value) :: p.options }

def has (p : Parsed) (long : String) : Bool := p.options.any fun o => o.1 = long

/-- The last value given for an option. -/
def value? (p : Parsed) (long : String) : Option Text := p.options.reverse.lookup (Text.ofString long)

end Parsed

namespace OptionSpec

/-- Whether an argument is written like an option. -/
def isOption (arg : Text) : Bool := arg.head? = some '-' && 1 < arg.length

def isLong (arg : Text) : Bool := Text.ofString "--" <+: arg

def named? (specs : List OptionSpec) (arg : Text) : Option OptionSpec :=
  specs.find? fun s => s.long = arg || s.short = some arg

/-- The option and value that a single argument spells. -/
def attached? (specs : List OptionSpec) (arg : Text) : Option (OptionSpec × Text) :=
  let split :=
    if isLong arg then (arg.takeWhile (fun u : CodeUnit => u ≠ '='), arg.dropWhile (fun u : CodeUnit => u ≠ '='))
    else (arg.take 2, arg)
  match named? specs split.1 with
  | some spec =>
    if spec.takesValue && split.2 ≠ [] then some (spec, split.2.drop (if isLong arg then 1 else 2)) else none
  | none => none

/-- Tells the options of a command from its operands. -/
def parse (specs : List OptionSpec) : List Text → Except UsageFault Parsed
  | [] => .ok {}
  | arg :: rest =>
    if arg = "--" then .ok { operands := rest }
    else if !isOption arg then (parse specs rest).map (·.addOperands [arg])
    else match named? specs arg with
      | some spec =>
        if spec.takesValue then
          match rest with
          | [] => .error (.missingValue arg)
          | value :: rest => (parse specs rest).map (·.addOption spec value)
        else (parse specs rest).map (·.addOption spec [])
      | none =>
        match attached? specs arg with
        | some (spec, value) => (parse specs rest).map (·.addOption spec value)
        | none => .error (.unknownOption arg)

end OptionSpec

/-! ## Commands -/

namespace Command

def asksVersion (arg : Text) : Bool := arg = "--version" || (Text.ofString "-V" <+: arg)

/-- The arguments up to the first that is written like an option, and those from there on.  A `--` ends the options
before there is one. -/
def splitOperands : List Text → List Text × List Text
  | [] => ([], [])
  | arg :: rest =>
    if arg = "--" then (rest, [])
    else if OptionSpec.isOption arg then ([], arg :: rest)
    else
      let (operands, others) := splitOperands rest
      (arg :: operands, others)

def jsonOption : OptionSpec := { long := "--json" }

def parseOptions : List OptionSpec :=
  [{ short := some "-o", long := "--output", takesValue := true }, jsonOption, { long := "--pretty" }]

def checkOptions : List OptionSpec := [{ long := "--fail-fast" }, jsonOption]

def parentsOptions : List OptionSpec := [{ short := some "-k", long := "--kind", takesValue := true }, jsonOption]

/-- The first operand, which a command cannot do without. -/
def firstOperand (name : Text) (p : Parsed) : Except UsageFault Text :=
  match p.operands with
  | [] => .error (.missingOperand name)
  | operand :: _ => .ok operand

/-- An option value that says something. -/
def nonempty (value : Option Text) : Option Text := value.filter (· ≠ [])

/-- The command of the given name with its operands and the arguments that may hold options. -/
def named (name : Text) (operands others : List Text) : Except UsageFault Command :=
  if name = "parse" then do
    let p := (← OptionSpec.parse parseOptions others).addOperands operands
    return .parse (← firstOperand name p) (nonempty (p.value? "--output")) (p.has "--json") (p.has "--pretty")
  else if name = "check" then do
    let p := (← OptionSpec.parse checkOptions others).addOperands operands
    let _ ← firstOperand name p
    return .check p.operands (p.has "--fail-fast") (p.has "--json")
  else if name = "parents" then do
    let p := (← OptionSpec.parse parentsOptions others).addOperands operands
    return .parents (← firstOperand name p) (p.value? "--kind") (p.has "--json")
  else .error (.unknownCommand name)

/-- The paths that a command reads from. -/
def sources : Command → List Text
  | .version => []
  | .parse file .. => [file]
  | .check paths .. => paths
  | .parents file .. => [file]

/-- The path that a command writes to. -/
def target? : Command → Option Text
  | .parse _ output _ _ => output
  | _ => none

/-- What a command line asks for.  The version is shown whatever else stands in the line. -/
def ofArguments (args : List Text) : Except UsageFault Command :=
  if (args.takeWhile (· ≠ Text.ofString "--")).any asksVersion then .ok .version
  else
    match splitOperands args with
    | ([], others) =>
      match others with
      | [] => .error .noCommand
      | option :: _ => .error (.unknownOption option)
    | (name :: operands, others) => named name operands others

end Command
end Cddl
