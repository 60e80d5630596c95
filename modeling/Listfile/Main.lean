import Listfile.CommandLine.Run
/-! # The program

Reads the file that the command line asks for, prints what the command prints, and reports the rest on the
standard error stream.
-/
namespace Listfile.CommandLine
set_option autoImplicit false

/-- Why a file cannot be read, given the number of the error, which may have either sign. -/
def ReadFailure.ofCode? (code : UInt32) : Option ReadFailure :=
  match min code (0 - code) with
  | 2 => some .notFound
  | 20 => some .notDirectory
  | 21 => some .isDirectory
  | 36 => some .nameTooLong
  | _ => none

def readContents (file : String) : IO (Except ReadFailure ByteArray) := do
  try
    return .ok (← IO.FS.readBinFile file)
  catch error =>
    let code? :=
      match error with
      | .noFileOrDirectory _ code _ | .inappropriateType _ code _ | .invalidArgument _ code _ => some code
      | _ => none
    return .error ((code?.bind ReadFailure.ofCode?).getD (.other (toString error)))

def execute (arguments : List String) : IO UInt32 := do
  let outcome ←
    match Request.ofArguments arguments with
    | .error refusal => pure (Outcome.ofRefusal refusal)
    | .ok request => do pure (request.perform (← readContents request.input.file))
  IO.print outcome.output
  for report in outcome.reports do
    IO.eprintln report
  return outcome.status.toUInt32

end Listfile.CommandLine

def main (arguments : List String) : IO UInt32 := Listfile.CommandLine.execute arguments
