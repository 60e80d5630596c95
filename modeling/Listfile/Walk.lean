import Listfile.Diagnostic
import Listfile.SymbolTable
import Listfile.Tree.Schema
/-! # Walking a tree

A walk visits the nodes of a tree, a node before its children, and at each node calls the handler that is
registered for its kind. A handler may change the node, and the walk goes on into the children that the node
has after that. The symbol table, the diagnostics and a log of the caller's choice are handed from one handler
to the next. A node of unknown kind is reported and passed over with everything below it.

Handlers may let a tree grow without end, so a walk is given the depth to which it may go. Where they do not
make nodes grow, the size of the tree is enough.
-/
namespace Listfile
set_option autoImplicit false

structure WalkState (σ : Type) where
  symbols : SymbolTable
  diagnostics : Diagnostics
  log : σ

/-- The kind that a node has when its handler is called, and its distance from the root. -/
structure Visit where
  kind : Kind
  depth : Nat
deriving DecidableEq, Repr, Inhabited

/-- What is done at a node: it may be replaced, and the state may change. -/
abbrev Handler (σ : Type) := Visit → Node → StateM (WalkState σ) Node

abbrev Handlers (σ : Type) := HandlerKey → Option (Handler σ)

namespace Handlers

variable {σ : Type}

def none : Handlers σ := fun _ => .none

/-- Registers a handler, in place of the one that was registered under the key. -/
def register (handlers : Handlers σ) (key : HandlerKey) (handler : Handler σ) : Handlers σ :=
  fun other => if other = key then some handler else handlers other

end Handlers

inductive DepthExceeded where
  | depthExceeded
deriving DecidableEq, Repr

/-- A part of a walk. The state survives where it is broken off. -/
abbrev WalkM (σ : Type) := EStateM DepthExceeded (WalkState σ)

namespace Walk

variable {σ : Type}

def report (diagnostic : Diagnostic) (state : WalkState σ) : WalkState σ :=
  { state with diagnostics := state.diagnostics.report diagnostic }

def dispatch (handlers : Handlers σ) (visit : Visit) (node : Node) : WalkM σ Node :=
  match handlers visit.kind.schema.handler with
  | none => pure node
  | some handler => modifyGet fun state => (handler visit node).run state

def visitChild (visit : Node → WalkM σ Node) (node : Node) (slot : Slot) : WalkM σ Node := do
  match node.child? slot with
  | none => pure node
  | some child => return node.setChild slot (← visit child)

def visitChildren (visit : Node → WalkM σ Node) (node : Node) (slot : Slot) : WalkM σ Node := do
  return node.setChildren slot (← (node.children slot).mapM visit)

/-- Visits a node at the given depth and what is below it, down to `limit` levels. The slots are those of the
kind that the node has before its handler is called. -/
def visit (handlers : Handlers σ) : (limit depth : Nat) → Node → WalkM σ Node
  | 0, _, _ => throw .depthExceeded
  | limit + 1, depth, node =>
    match node.kind? with
    | none => do
      modify (report (.unrecognizedNode node.tag node.span))
      return node
    | some kind => do
      let node ← dispatch handlers ⟨kind, depth⟩ node
      let node ← kind.schema.single.foldlM (visitChild (visit handlers limit (depth + 1))) node
      kind.schema.multi.foldlM (visitChildren (visit handlers limit (depth + 1))) node

end Walk

end Listfile
