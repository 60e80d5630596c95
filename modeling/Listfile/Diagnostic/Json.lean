import Listfile.Diagnostic
import Listfile.Tree.Export
/-! # Diagnostics as JSON

A diagnostic is an object with one member, whose name says which one it is.
-/
namespace Listfile.Diagnostic
set_option autoImplicit false

def tag : Diagnostic → String
  | unrecognizedNode .. => "UnrecognizedNode"
  | ignoredAssignment .. => "IgnoredAssignment"
  | nonLiteralAssignment .. => "NonLiteralAssignment"
  | malformedReference .. => "MalformedMacro"
  | undefinedName .. => "UndefinedMacro"

def toJson (diagnostic : Diagnostic) : Json :=
  let details : List (String × Json) :=
    match diagnostic with
    | unrecognizedNode tag _ => [("tag", .string tag)]
    | ignoredAssignment command arity _ => [("command", .string command), ("arity", .ofNat arity)]
    | nonLiteralAssignment command _ => [("command", .string command)]
    | malformedReference text _ => [("text", .string text)]
    | undefinedName name _ => [("name", .string name)]
  .object [(diagnostic.tag, .object (details ++ [("span", diagnostic.span.toJson)]))]

end Listfile.Diagnostic
