import Listfile.Tree.Node
/-! # How each kind of node is visited

The schema gives every kind the key under which handlers are registered for it, and the slots in which its
children are visited: first those that hold one child, then those that hold a sequence, each in order.
-/
namespace Listfile
set_option autoImplicit false

inductive HandlerKey where
  | toplevel
  | whileLoop
  | foreachLoop
  | functionDefinition
  | macroDefinition
  | conditional
  | ifClause
  | elseifClause
  | elseClause
  | call
  | inclusion
  | word
deriving DecidableEq, Repr, Inhabited

namespace HandlerKey

def all : List HandlerKey :=
  [toplevel, whileLoop, foreachLoop, functionDefinition, macroDefinition, conditional, ifClause, elseifClause,
    elseClause, call, inclusion, word]

def name : HandlerKey → String
  | toplevel => "toplevel"
  | whileLoop => "while_stmnt"
  | foreachLoop => "foreach"
  | functionDefinition => "function_def"
  | macroDefinition => "macro_def"
  | conditional => "if_block"
  | ifClause => "if_stmnt"
  | elseifClause => "elseif_stmnt"
  | elseClause => "else_stmnt"
  | call => "function_call"
  | inclusion => "include"
  | word => "word"

structure Unknown where
  name : String
deriving DecidableEq, Repr

def Unknown.message (unknown : Unknown) : String := "unknown handler key: `" ++ unknown.name ++ "`"

def ofName (name : String) : Except Unknown HandlerKey :=
  match all.find? (·.name = name) with
  | some key => .ok key
  | none => .error ⟨name⟩

end HandlerKey

/-- How nodes of one kind are dispatched and descended into. -/
structure SchemaEntry where
  handler : HandlerKey
  /-- The slots that hold one child, in the order in which they are visited. -/
  single : List Slot
  /-- The slots that hold a sequence of children, which are visited after those that hold one. -/
  multi : List Slot
deriving DecidableEq, Repr

def Kind.schema : Kind → SchemaEntry
  | toplevel => ⟨.toplevel, [], [.statements]⟩
  | whileLoop => ⟨.whileLoop, [.header, .footer], [.body]⟩
  | foreachLoop => ⟨.foreachLoop, [.header, .footer], [.body]⟩
  | functionDefinition => ⟨.functionDefinition, [.header, .footer], [.body]⟩
  | macroDefinition => ⟨.macroDefinition, [.header, .footer], [.body]⟩
  | conditional => ⟨.conditional, [.ifClause, .elseClause, .footer], [.elseifClauses]⟩
  | ifClause => ⟨.ifClause, [.header], [.body]⟩
  | elseifClause => ⟨.elseifClause, [.header], [.body]⟩
  | elseClause => ⟨.elseClause, [.header], [.body]⟩
  | call => ⟨.call, [], [.arguments]⟩
  | inclusion => ⟨.inclusion, [], []⟩
  | word => ⟨.word, [], []⟩

end Listfile
