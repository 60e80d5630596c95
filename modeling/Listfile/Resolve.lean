import Listfile.Assignment
import Listfile.Reference
import Listfile.Walk.Collect
/-! # Resolving inclusions

One walk carries out the assignments of a script and expands the first reference in the name of each included
file, with the values that have been assigned by then. Blocks make no difference: every assignment that is
visited counts, whether or not it would be executed.
-/
namespace Listfile
set_option autoImplicit false

variable {σ : Type}

/-- The handler for calls: carries out assignments by the given command. -/
def Assignment.handle (command : String) (node : Node) (state : WalkState σ) : WalkState σ :=
  match node with
  | .call place name arguments =>
    let (assignment, symbols) := Assignment.record command name arguments state.symbols
    let state := { state with symbols }
    match assignment with
    | .wrongArity arity => Walk.report (.ignoredAssignment name arity place.span) state
    | .nonLiteral => Walk.report (.nonLiteralAssignment name place.span) state
    | .notAssignment | .recorded .. => state
  | _ => state

/-- An inclusion with the first reference in its filename expanded, and what is wrong if that cannot be done.
Other nodes are left alone. -/
def Node.substitute (symbols : SymbolTable) (node : Node) : Node × Option Diagnostic :=
  match node with
  | inclusion place filename options =>
    match expand filename symbols with
    | .noReference => (node, none)
    | .expanded text => (inclusion place text options, none)
    | .malformed => (node, some (.malformedReference filename place.span))
    | .undefined name => (node, some (.undefinedName name place.span))
  | _ => (node, none)

theorem Node.size_substitute (symbols : SymbolTable) (node : Node) :
    (node.substitute symbols).1.size = node.size := by
  unfold substitute
  split
  · split <;> rfl
  · rfl

namespace Resolve

def define (command : String) : Handler σ := fun _ node => do
  modify (Assignment.handle command node)
  return node

def substitute : Handler σ := fun _ node => modifyGet fun state =>
  let (node, diagnostic?) := node.substitute state.symbols
  (node, diagnostic?.elim state (Walk.report · state))

def handlers (command : String) : Handlers σ :=
  (Handlers.none.register .call (define command)).register .inclusion substitute

theorem nonGrowing_handlers (command : String) : (handlers (σ := σ) command).NonGrowing := by
  refine (Handlers.nonGrowing_none.register _ fun _ _ _ => Nat.le_refl _).register _ fun _ node state => ?_
  exact Nat.le_of_eq (node.size_substitute state.symbols)

def defaultCommand : String := "set"

end Resolve

/-- A tree whose inclusions are resolved, with the final definitions and, in strict mode, what went wrong. -/
structure Resolution where
  tree : Node
  symbols : SymbolTable
  diagnostics : List Diagnostic

/-- Resolves the inclusions of a tree, starting from the definitions of `seed`. -/
def resolve (command : String) (strict : Bool) (seed : SymbolTable) (root : Node) : Resolution :=
  let start : WalkState Unit := ⟨seed, .start strict, ()⟩
  let (tree, state) := Walk.run (Resolve.handlers command) (Resolve.nonGrowing_handlers command) root start
  ⟨tree, state.symbols, state.diagnostics.records⟩

/-- The inclusions of a tree with their depths, in the order in which they are visited. -/
def inclusions (root : Node) : List (Node × Nat) :=
  Walk.collect (fun visit node => (node, visit.depth)) [.inclusion] root

end Listfile
