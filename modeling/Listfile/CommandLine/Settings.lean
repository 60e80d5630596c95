import Listfile.Text.Control
import Listfile.Tree.Schema
/-! # Options of the command line

The subcommands, their options and how each is written, and what a use of an option changes in the settings.
Errors of usage name their cause; the wording is given once, by `UsageError.message`, which shows what was
given without its control characters.
-/
namespace Listfile.CommandLine
set_option autoImplicit false

inductive Subcommand where
  | dump
  | resolve
  | parse
deriving DecidableEq, Repr

def Subcommand.ofName? : String → Option Subcommand
  | "dump" => some .dump
  | "resolve" => some .resolve
  | "parse" => some .parse
  | _ => none

inductive OptionName where
  | help
  | verbose
  | json
  | only
  | define
  | assignmentCommand
  | strict
  | resolve
  | pretty
deriving DecidableEq, Repr

namespace OptionName

def short? : OptionName → Option Char
  | help => some 'h'
  | verbose => some 'v'
  | define => some 'D'
  | pretty => some 'p'
  | _ => none

def long? : OptionName → Option String
  | help => some "help"
  | verbose => some "verbose"
  | json => some "json"
  | only => some "only"
  | define => none
  | assignmentCommand => some "assignment-command"
  | strict => some "strict"
  | resolve => some "resolve"
  | pretty => some "pretty"

def valueName? : OptionName → Option String
  | only => some "KEY"
  | define => some "NAME=VALUE"
  | assignmentCommand => some "ASSIGNMENT_COMMAND"
  | _ => none

def usage (option : OptionName) : String :=
  let name :=
    match option.long?, option.short? with
    | some long, _ => "--" ++ long
    | none, some short => String.ofList ['-', short]
    | none, none => ""
  match option.valueName? with
  | some value => name ++ " <" ++ value ++ ">"
  | none => if option = verbose then name ++ "..." else name

/-- Options that every subcommand takes, and that may come before it. -/
def global : List OptionName := [help, verbose]

end OptionName

def Subcommand.options : Subcommand → List OptionName
  | dump => [.json, .only]
  | resolve => [.json, .define, .assignmentCommand, .strict]
  | parse => [.json, .resolve, .define, .assignmentCommand, .strict, .pretty]

inductive Advice where
  /-- A file whose name looks like an option. -/
  | file
  | option (name : String)
deriving DecidableEq, Repr

def Advice.message (argument : String) : Advice → String
  | file => "to pass '" ++ argument ++ "' as a value, use '-- " ++ argument ++ "'"
  | option name => "a similar argument exists: '--" ++ name ++ "'"

inductive UsageError where
  | nothingGiven
  | missingSubcommand
  | unknownSubcommand (name : String)
  | unexpectedArgument (argument : String) (advice? : Option Advice)
  | missingArguments
  /-- `subject` is an option or the place of a file, as messages show it. -/
  | missingValue (subject : String)
  | unneededValue (value : String) (option : OptionName)
  | invalidValue (value : String) (option : OptionName) (reason : String)
  | repeated (option : OptionName)
deriving DecidableEq, Repr

namespace UsageError

/-- The last sentence of each message, as far as it is set in plain type. -/
def hint : String := "\n\nFor more information, try '"

/-- What is wrong, and what can be done about it. -/
def message : UsageError → String
  | nothingGiven | missingSubcommand => plain "'cmakeast' requires a subcommand but one was not provided"
  | unknownSubcommand name => plain ("unrecognized subcommand '" ++ Text.withoutControls name ++ "'")
  | unexpectedArgument argument advice? =>
    let shown := Text.withoutControls argument
    let tip := advice?.map fun advice => "\n\n  tip: " ++ advice.message shown
    plain ("unexpected argument '" ++ shown ++ "' found" ++ tip.getD "")
  | missingArguments => plain "the following required arguments were not provided:\n  <FILE>"
  | missingValue subject => plain ("a value is required for '" ++ subject ++ "' but none was supplied")
  | unneededValue value option =>
    plain ("unexpected value '" ++ Text.withoutControls value ++ "' for '" ++ option.usage ++
      "' found; no more were expected")
  | invalidValue value option reason =>
    "invalid value '" ++ Text.withoutControls value ++ "' for '" ++ option.usage ++ "'" ++
      Text.withoutControls (": " ++ reason ++ hint) ++ "--help'."
  | repeated option => plain ("the argument '" ++ option.usage ++ "' cannot be used multiple times")
where
  plain (text : String) : String := text ++ hint ++ "--help'."

end UsageError

structure Settings where
  file? : Option String
  verbosity : Nat
  json : Bool
  only : List HandlerKey
  definitions : List (String × String)
  assignmentCommand? : Option String
  strict : Bool
  resolve : Bool
  pretty : Bool
deriving DecidableEq, Repr

namespace Settings

def initial : Settings := ⟨none, 0, false, [], [], none, false, false, false⟩

/-- Splits a definition at its first equals sign; its name must not be empty. -/
def definition? (text : String) : Option (String × String) :=
  let cs := text.toList
  match cs.takeWhile (· ≠ '='), cs.dropWhile (· ≠ '=') with
  | [], _ | _, [] => none
  | name, _ :: value => some (String.ofList name, String.ofList value)

/-- Sets a switch, which must not be set already. -/
def setOnce (option : OptionName) (isSet : Bool) (changed : Settings) : Except UsageError Settings :=
  if isSet then .error (.repeated option) else .ok changed

def setFile (settings : Settings) (file : String) : Except UsageError Settings :=
  if file = "" then .error (.missingValue "<FILE>") else .ok { settings with file? := some file }

/-- What a use of an option changes; `value` is the value it is given if it takes one. Nothing changes where help
is asked for. -/
def use (settings : Settings) (option : OptionName) (value : String) : Except UsageError Settings :=
  match option with
  | .help => .ok settings
  | .verbose => .ok { settings with verbosity := settings.verbosity + 1 }
  | .json => setOnce option settings.json { settings with json := true }
  | .strict => setOnce option settings.strict { settings with strict := true }
  | .resolve => setOnce option settings.resolve { settings with resolve := true }
  | .pretty => setOnce option settings.pretty { settings with pretty := true }
  | .assignmentCommand =>
    setOnce option settings.assignmentCommand?.isSome { settings with assignmentCommand? := some value }
  | .only =>
    match HandlerKey.ofName value with
    | .ok key => .ok { settings with only := settings.only ++ [key] }
    | .error unknown => .error (.invalidValue value option unknown.message)
  | .define =>
    match definition? value with
    | some definition => .ok { settings with definitions := settings.definitions ++ [definition] }
    | none => .error (.invalidValue value option ("expected NAME=VALUE, got `" ++ value ++ "`"))

end Settings

end Listfile.CommandLine
