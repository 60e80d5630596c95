import Listfile.Source.Span
/-! # Tolerated conditions

A walk never fails: what it cannot make sense of is passed over. In strict mode it also records what it
passed over, each time with the place and the cause.
-/
namespace Listfile
set_option autoImplicit false

inductive Diagnostic where
  /-- A node of unknown kind, which was passed over with everything below it. -/
  | unrecognizedNode (tag : String) (span : Span)
  /-- An assignment with other than two arguments. -/
  | ignoredAssignment (command : String) (arity : Nat) (span : Span)
  /-- An assignment whose name or value is not plain text. -/
  | nonLiteralAssignment (command : String) (span : Span)
  /-- A reference that is opened and not closed. -/
  | malformedReference (text : String) (span : Span)
  /-- A reference to a name that is not defined where it stands. -/
  | undefinedName (name : String) (span : Span)
deriving DecidableEq, Repr, Inhabited

namespace Diagnostic

def span : Diagnostic → Span
  | unrecognizedNode _ span => span
  | ignoredAssignment _ _ span => span
  | nonLiteralAssignment _ span => span
  | malformedReference _ span => span
  | undefinedName _ span => span

def message : Diagnostic → String
  | unrecognizedNode tag _ => "unrecognized node `" ++ tag ++ "`: subtree skipped"
  | ignoredAssignment command arity _ =>
    "`" ++ command ++ "` with " ++ toString arity ++ " argument(s) ignored: expected exactly 2"
  | nonLiteralAssignment command _ => "`" ++ command ++ "` with non-literal arguments ignored"
  | malformedReference text _ => "malformed macro reference in `" ++ text ++ "`"
  | undefinedName name _ => "undefined macro `" ++ name ++ "`"

end Diagnostic

/-- A record of diagnostics, which keeps what is reported only if it is enabled. -/
structure Diagnostics where
  enabled : Bool
  records : List Diagnostic
deriving DecidableEq, Repr, Inhabited

namespace Diagnostics

def start (enabled : Bool) : Diagnostics := ⟨enabled, []⟩

def report (diagnostics : Diagnostics) (diagnostic : Diagnostic) : Diagnostics :=
  if diagnostics.enabled then { diagnostics with records := diagnostics.records ++ [diagnostic] } else diagnostics

@[simp] theorem enabled_report (diagnostics : Diagnostics) (diagnostic : Diagnostic) :
    (diagnostics.report diagnostic).enabled = diagnostics.enabled := by
  unfold report
  split <;> rfl

end Diagnostics

end Listfile
