import Listfile.CommandLine.Settings
import Listfile.Text.Similar
/-! # Reading the arguments of a command line

Arguments are taken one after the other. An option that takes a value may have it attached or take the next
argument; the value is only looked at when the next argument is understood, so that an argument that is not
expected is reported first. After `--` all arguments are files. Where help is asked for, nothing further is read.
-/
namespace Listfile.CommandLine
set_option autoImplicit false

/-- Why there is no command to be run. -/
inductive Refusal where
  | helpRequested
  | usage (error : UsageError)
deriving DecidableEq, Repr

inductive Pending where
  | file (value : String)
  /-- The value is still missing where it is `none`. -/
  | option (option : OptionName) (value : Option String)
deriving DecidableEq, Repr

structure Reading where
  subcommand? : Option Subcommand
  settings : Settings
  pending : Option Pending
  /-- Whether `--` has come. -/
  filesOnly : Bool
deriving DecidableEq, Repr

namespace Reading

def start : Reading := ⟨none, .initial, none, false⟩

def options (reading : Reading) : List OptionName :=
  OptionName.global ++ (reading.subcommand?.map (·.options)).getD []

def settle (reading : Reading) : Except Refusal Settings :=
  let settled : Except UsageError Settings :=
    match reading.pending with
    | none => .ok reading.settings
    | some (.file value) => reading.settings.setFile value
    | some (.option option (some value)) => reading.settings.use option value
    | some (.option option none) => .error (.missingValue option.usage)
  settled.mapError .usage

/-- Uses an option with a value that is attached to it, or without any. -/
def use (reading : Reading) (option : OptionName) (value : String) : Except Refusal Reading := do
  let settings ← reading.settle
  if option = .help then throw .helpRequested
  let settings ← (settings.use option value).mapError .usage
  return { reading with settings, pending := none }

def postpone (reading : Reading) (pending : Pending) : Except Refusal Reading := do
  let settings ← reading.settle
  return { reading with settings, pending := some pending }

/-- Takes a file, of which there can be only one. -/
def file (reading : Reading) (argument : String) : Except Refusal Reading :=
  let hasFile :=
    match reading.pending with
    | some (.file _) => true
    | _ => reading.settings.file?.isSome
  if hasFile then .error (.usage (.unexpectedArgument argument none)) else reading.postpone (.file argument)

/-- The refusal of an option that is not known. It may be a file where a file may come. -/
def unknownOption (reading : Reading) (argument : String) (similar? : Option String) : Refusal :=
  let advice? :=
    match similar?, reading.subcommand? with
    | some name, _ => some (.option name)
    | none, some _ => some .file
    | none, none => none
  .usage (.unexpectedArgument argument advice?)

/-- Takes an option that is written with its long name, which an equals sign and a value may follow. -/
def long (reading : Reading) (body : List Char) : Except Refusal Reading :=
  let name := String.ofList (body.takeWhile (· ≠ '='))
  let attached? :=
    match body.dropWhile (· ≠ '=') with
    | [] => none
    | _ :: value => some (String.ofList value)
  match reading.options.find? (·.long? = some name) with
  | none =>
    let similar? := Text.mostSimilar? (reading.options.filterMap (·.long?)) name
    .error (reading.unknownOption ("--" ++ name) similar?)
  | some option =>
    match option.valueName?, attached? with
    | some _, some value => reading.use option value
    | some _, none => reading.postpone (.option option none)
    | none, some value => .error (.usage (.unneededValue value option))
    | none, none => reading.use option ""

/-- Takes options that are written with their short names. The first one that takes a value has the rest of
the argument attached to it. -/
def short (reading : Reading) : List Char → Except Refusal Reading
  | [] => .ok reading
  | c :: rest =>
    match reading.options.find? (·.short? = some c) with
    | none => .error (reading.unknownOption (String.ofList ['-', c]) none)
    | some option =>
      match option.valueName?, rest with
      | none, rest => do (← reading.use option "").short rest
      | some _, [] => reading.postpone (.option option none)
      | some _, '=' :: value => reading.use option (String.ofList value)
      | some _, value => reading.use option (String.ofList value)

def argument (reading : Reading) (argument : String) : Except Refusal Reading :=
  if reading.filesOnly then reading.file argument
  else
    match argument.toList with
    | ['-', '-'] => .ok { reading with filesOnly := true }
    | '-' :: '-' :: body => reading.long body
    | '-' :: c :: rest => reading.short (c :: rest)
    | _ =>
      match reading.pending with
      | some (.option option none) => .ok { reading with pending := some (.option option (some argument)) }
      | _ => reading.file argument

end Reading

def Subcommand.read (subcommand : Subcommand) (settings : Settings) (arguments : List String) :
    Except Refusal Settings := do
  let reading ← arguments.foldlM Reading.argument ⟨some subcommand, settings, none, false⟩
  let settings ← reading.settle
  if settings.file?.isSome then return settings else throw (.usage .missingArguments)

/-- What comes of asking for help on a subcommand, which at most one further argument names. -/
def helpOn : List String → Refusal
  | [] => .helpRequested
  | topic :: rest =>
    if topic = "help" ∨ (Subcommand.ofName? topic).isSome then
      match rest with
      | [] => .helpRequested
      | name :: _ => .usage (.unknownSubcommand name)
    else .usage (.unknownSubcommand topic)

/-- Reads arguments, of which a subcommand is the first that is not an option. -/
def Reading.all (reading : Reading) : List String → Except Refusal (Subcommand × Settings)
  | [] => .error (.usage (if reading.settings.verbosity = 0 then .nothingGiven else .missingSubcommand))
  | argument :: rest =>
    if reading.filesOnly then
      let isName := argument = "help" ∨ (Subcommand.ofName? argument).isSome
      .error (.usage (if isName then .unexpectedArgument argument none else .unknownSubcommand argument))
    else
      match argument.toList with
      | ['-', '-'] => Reading.all { reading with filesOnly := true } rest
      | '-' :: '-' :: body => do Reading.all (← reading.long body) rest
      | '-' :: c :: cs => do Reading.all (← reading.short (c :: cs)) rest
      | _ =>
        if argument = "help" then .error (helpOn rest)
        else
          match Subcommand.ofName? argument with
          | some subcommand => do return (subcommand, ← subcommand.read reading.settings rest)
          | none => .error (.usage (.unknownSubcommand argument))

/-- The subcommand that arguments name, and the settings that they make. -/
def readArguments (arguments : List String) : Except Refusal (Subcommand × Settings) :=
  Reading.start.all arguments

end Listfile.CommandLine
