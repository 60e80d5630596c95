import Listfile.CommandLine.Arguments
import Listfile.Dump
import Listfile.Resolve
import Listfile.Source.Excerpt
import Listfile.Tree.Import
import Listfile.Tree.Outline
/-! # Running a command

A command line asks for one file, and what is to be done with it. Once the contents of the file are known the
outcome is fixed: the status, what is printed, and what is reported.
-/
namespace Listfile.CommandLine
set_option autoImplicit false

structure Input where
  file : String
  /-- Whether the file holds an exported tree rather than a script. -/
  json : Bool
deriving DecidableEq, Repr

structure ResolveOptions where
  definitions : List (String × String)
  command : String
  strict : Bool
deriving DecidableEq, Repr

inductive Action where
  | dump (only : List HandlerKey)
  | resolve (options : ResolveOptions)
  /-- The tree is resolved before it is printed if there are options for that. -/
  | parse (options : Option ResolveOptions) (layout : Json.Layout)
deriving DecidableEq, Repr

structure Request where
  input : Input
  action : Action
deriving DecidableEq, Repr

def Settings.resolveOptions (settings : Settings) : ResolveOptions :=
  ⟨settings.definitions, settings.assignmentCommand?.getD Resolve.defaultCommand, settings.strict⟩

def Subcommand.action (subcommand : Subcommand) (settings : Settings) : Action :=
  match subcommand with
  | .dump => .dump settings.only
  | .resolve => .resolve settings.resolveOptions
  | .parse =>
    .parse (if settings.resolve then some settings.resolveOptions else none)
      (if settings.pretty then .indented else .compact)

def Request.ofArguments (arguments : List String) : Except Refusal Request := do
  let (subcommand, settings) ← readArguments arguments
  match settings.file? with
  | some file => return ⟨⟨file, settings.json⟩, subcommand.action settings⟩
  | none => throw (.usage .missingArguments)

/-! ## Outcomes -/

inductive ReadFailure where
  | notFound
  /-- A directory is named where there is a file. -/
  | notDirectory
  | isDirectory
  | nameTooLong
  | notText
  | other (message : String)
deriving DecidableEq, Repr

def ReadFailure.message : ReadFailure → String
  | notFound => "No such file or directory (os error 2)"
  | notDirectory => "Not a directory (os error 20)"
  | isDirectory => "Is a directory (os error 21)"
  | nameTooLong => "File name too long (os error 36)"
  | notText => "stream did not contain valid UTF-8"
  | other message => message

structure Outcome where
  status : Nat
  output : String
  /-- What is reported, each in one piece. -/
  reports : List String
deriving DecidableEq, Repr

namespace Outcome

/-- Nothing is printed, and one thing is reported. -/
def failure (status : Nat) (report : String) : Outcome := ⟨status, "", [report]⟩

def lines (lines : List String) : String := String.join (lines.map (· ++ "\n"))

def helpText : String :=
  Outcome.lines [
    "Walk and resolve CMake-style script trees",
    "",
    "Usage: cmakeast [-v]... dump <FILE> [--json] [--only <KEY>]...",
    "       cmakeast [-v]... resolve <FILE> [--json] [-D <NAME=VALUE>]... [OPTIONS]",
    "       cmakeast [-v]... parse <FILE> [--json] [--resolve] [-D <NAME=VALUE>]... [--pretty] [OPTIONS]",
    "",
    "Options:",
    "  --assignment-command <ASSIGNMENT_COMMAND>  Command that defines macros [default: set]",
    "  --strict                                   Report what resolution passes over; exit 1 if anything"]

/-- The outcome of a command line that is refused. Help that was not asked for is reported. -/
def ofRefusal : Refusal → Outcome
  | .helpRequested => ⟨0, helpText, []⟩
  | .usage .nothingGiven => failure 2 helpText
  | .usage error => failure 2 ("error: " ++ error.message)

end Outcome

structure Document where
  file : String
  root : Node
  /-- The script that was parsed, unless an exported tree was read. -/
  script? : Option String

/-- A report on a span of a script: the message and what is shown of the script, with the message again below it. -/
def scriptReport (word file script message : String) (span : Span) : String :=
  let heading := word ++ ": " ++ message
  match Excerpt.ofSpan? script span with
  | none => heading
  | some ⟨position, complete⟩ =>
    let place := file ++ ":" ++ toString position.line ++ ":" ++ toString position.column
    heading ++ "\n   ╭─[" ++ place ++ "]" ++ if complete then "\n   ╰── " ++ message else ""

/-- The tree in a file, or what is reported instead. -/
def Input.load (input : Input) (contents : Except ReadFailure ByteArray) : Except String Document := do
  let unreadable (failure : ReadFailure) := "Error reading " ++ input.file ++ ": " ++ failure.message
  let bytes ← contents.mapError unreadable
  match String.fromUTF8? bytes with
  | none => throw (unreadable .notText)
  | some text =>
    if input.json then
      let invalid (error : Json.ReadError) := "Invalid tree in " ++ input.file ++ ": " ++ error.message
      return ⟨input.file, ← (Node.ofJson text).mapError invalid, none⟩
    else
      let invalid (error : ParseError) := scriptReport "Error" input.file text error.message error.span
      return ⟨input.file, ← (parse text).mapError invalid, some text⟩

def ResolveOptions.apply (options : ResolveOptions) (root : Node) : Resolution :=
  Listfile.resolve options.command options.strict (.ofList options.definitions) root

namespace Document

def report (document : Document) (diagnostic : Diagnostic) : String :=
  match document.script? with
  | some script => scriptReport "Warning" document.file script diagnostic.message diagnostic.span
  | none => "warning: " ++ diagnostic.message

/-- What is reported at the end, if there are diagnostics. -/
def summary (document : Document) (diagnostics : List Diagnostic) : String :=
  "✗ " ++ document.file ++ " - " ++ toString diagnostics.length ++ " diagnostic(s)"

/-- The outcome of a command that prints something and may have diagnostics. -/
def outcome (document : Document) (output : String) (diagnostics : List Diagnostic) : Outcome :=
  if diagnostics.isEmpty then ⟨0, output, []⟩
  else ⟨1, output, diagnostics.map document.report ++ [document.summary diagnostics]⟩

end Document

def inclusionLine (node : Node) : String :=
  "include " ++ node.label?.getD "" ++ " " ++ node.place.position.text

/-- What the resolution of a tree prints: its inclusions, and the final definitions. -/
def resolutionLines (resolution : Resolution) : List String :=
  (inclusions resolution.tree).map (fun (node, _) => inclusionLine node) ++ "-- symbols --" ::
    resolution.symbols.entries.map fun (name, value) => name ++ " = " ++ value

def Action.perform (action : Action) (document : Document) : Outcome :=
  match action with
  | .dump only => document.outcome (Outcome.lines (Listfile.dump only document.root)) []
  | .resolve options =>
    let resolution := options.apply document.root
    document.outcome (Outcome.lines (resolutionLines resolution)) resolution.diagnostics
  | .parse none layout => document.outcome (Outcome.lines [document.root.render layout]) []
  | .parse (some options) layout =>
    let resolution := options.apply document.root
    document.outcome (Outcome.lines [resolution.tree.render layout]) resolution.diagnostics

/-- The outcome of a request, given the contents of its file. -/
def Request.perform (request : Request) (contents : Except ReadFailure ByteArray) : Outcome :=
  match request.input.load contents with
  | .ok document => request.action.perform document
  | .error report => .failure 1 report

/-- The outcome of a command line, given what each file holds. -/
def run (arguments : List String) (read : String → Except ReadFailure ByteArray) : Outcome :=
  match Request.ofArguments arguments with
  | .error refusal => .ofRefusal refusal
  | .ok request => request.perform (read request.input.file)

end Listfile.CommandLine
