import Listfile.SymbolTable
import Listfile.Tree.Node
/-! # Assignments

A call of the assignment command defines a name if it has exactly two arguments and both are plain text.
-/
namespace Listfile
set_option autoImplicit false

inductive Assignment where
  | notAssignment
  /-- A name is defined; `previous` is the value that it had before. -/
  | recorded (name : String) (previous : Option String)
  | wrongArity (arity : Nat)
  | nonLiteral
deriving DecidableEq, Repr

/-- The text of a node that is a word and means its text as it stands. -/
def Node.literal? : Node → Option String
  | word _ type contents => if type.isLiteral then some contents else none
  | _ => none

def Assignment.record (command name : String) (arguments : List Node) (symbols : SymbolTable) :
    Assignment × SymbolTable :=
  if sameCommand name command then
    match arguments with
    | [name, value] =>
      match name.literal?, value.literal? with
      | some name, some value =>
        let (previous, symbols) := symbols.exchange name value
        (recorded name previous, symbols)
      | _, _ => (nonLiteral, symbols)
    | arguments => (wrongArity arguments.length, symbols)
  else (notAssignment, symbols)

end Listfile
