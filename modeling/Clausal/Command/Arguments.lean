import Clausal.Command.Run

/-!
# Command lines

```
check      MODULE [--allow-errors] [--allow-redundant]
show       MODULE --name NAME
simplify   MODULE --goal GOAL [--using NAME,…]
case-split MODULE --goal GOAL --on TERM
```

Options come in any order, as `--option value` or `--option=value`.
-/

namespace Clausal.Command

/-- What a command line asks for. -/
inductive Invocation where
  | version
  | run (file : ModuleFile) (settings : Settings) (action : Action)
deriving Repr

/-- Why a command line is not understood. -/
inductive UsageError where
  | noCommand
  | unknownCommand (name : String)
  | unexpectedArgument (arg : String)
  | missingValue (option : String)
  | repeatedOption (option : String)
  | missingArgument (what : String)
deriving DecidableEq, Repr

def UsageError.message : UsageError → String
  | .noCommand => "a command is required"
  | .unknownCommand name => "unknown command " ++ quoted name
  | .unexpectedArgument arg => "unexpected argument " ++ quoted arg
  | .missingValue option => quoted option ++ " requires a value"
  | .repeatedOption option => quoted option ++ " was given more than once"
  | .missingArgument what => quoted what ++ " is required"

/-- Arguments of a command, sorted out. -/
structure Arguments where
  positional : List String := []
  flags : List String := []
  /-- Options and their values in the order they were given. -/
  values : List (String × String) := []
deriving Repr, Inhabited

/-- The options that a command knows. -/
structure Options where
  flags : List String := ["--allow-redundant", "--allow-errors"]
  /-- Options with one value. -/
  single : List String := []
  /-- Options that may be repeated. -/
  multiple : List String := []

namespace Arguments

/-- The name and the value of an argument `--option=value`. -/
def splitOption (arg : String) : String × Option String :=
  match arg.splitOn "=" with
  | [] | [_] => (arg, none)
  | name :: parts => (name, some ("=".intercalate parts))

def isOption (arg : String) : Bool := arg.startsWith "-" && arg != "-"

/-- Put an option and its value in front. -/
def addValue (as : Arguments) (option value : String) : Arguments :=
  { as with values := (option, value) :: as.values }

/-- Sort out arguments. -/
def read (known : Options) : List String → Except UsageError Arguments
  | [] => .ok {}
  | arg :: rest =>
      if !isOption arg then do
        let as ← read known rest
        return { as with positional := arg :: as.positional }
      else if known.flags.contains arg then do
        let as ← read known rest
        return { as with flags := arg :: as.flags }
      else
        let (option, value?) := splitOption arg
        if (known.single ++ known.multiple).contains option then
          match value? with
          | some value => return (← read known rest).addValue option value
          | none =>
              match rest with
              | value :: rest => return (← read known rest).addValue option value
              | [] => .error (.missingValue option)
        else
          .error (.unexpectedArgument arg)

/-- All values of an option. -/
def all (as : Arguments) (option : String) : List String :=
  (as.values.filter fun entry => entry.1 == option).map (·.2)

/-- The value of an option that is given once. -/
def one (as : Arguments) (option : String) : Except UsageError String :=
  match as.all option with
  | [value] => .ok value
  | [] => .error (.missingArgument option)
  | _ => .error (.repeatedOption option)

def moduleFile (as : Arguments) : Except UsageError ModuleFile :=
  match as.positional with
  | [arg] => .ok (.ofArgument arg)
  | [] => .error (.missingArgument "MODULE")
  | _ :: arg :: _ => .error (.unexpectedArgument arg)

/-- Settings at the width of a command line. -/
def settings (as : Arguments) : Settings :=
  { allowErrors := as.flags.contains "--allow-errors"
    allowRedundant := as.flags.contains "--allow-redundant"
    width := some Print.width }

end Arguments

namespace Invocation

def action (command : String) (as : Arguments) : Except UsageError Action := do
  match command with
  | "check" => return .check
  | "show" => return .describe (← as.one "--name")
  | "simplify" =>
      let goal ← as.one "--goal"
      return .simplify goal ((as.all "--using").flatMap fun value => value.splitOn ",")
  | "case-split" =>
      let goal ← as.one "--goal"
      return .caseSplit goal (← as.one "--on")
  | _ => throw (.unknownCommand command)

def options : String → Options
  | "show" => { single := ["--name"] }
  | "simplify" => { single := ["--goal"], multiple := ["--using"] }
  | "case-split" => { single := ["--goal", "--on"] }
  | _ => {}

/-- Understand a command line. -/
def parse : List String → Except UsageError Invocation
  | [] => .error .noCommand
  | command :: args =>
      if command == "--version" || command == "-V" then
        .ok .version
      else do
        let as ← Arguments.read (options command) args
        let action ← action command as
        let file ← as.moduleFile
        return .run file as.settings action

end Invocation

def versionText : String := "equations 0.1.0"

/-- The outcome of an invocation, given what can be read. -/
def Invocation.outcome (read : ModuleFile → Except ReadError ByteArray) :
    Invocation → Eval Outcome
  | .version => return { status := .ok, output := versionText ++ "\n" }
  | .run file settings action => runOn settings file.name (read file) action

end Clausal.Command
