import Listfile.Keyword
/-! # Kinds of nodes

The kinds of nodes a tree is made of, the kinds of words, and the named slots in which a node holds its
children. A slot holds one child or a sequence of them.
-/
namespace Listfile
set_option autoImplicit false

inductive Kind where
  | toplevel
  | whileLoop
  | foreachLoop
  | functionDefinition
  | macroDefinition
  | conditional
  | ifClause
  | elseifClause
  | elseClause
  | call
  | inclusion
  | word
deriving DecidableEq, Repr, Inhabited

namespace Kind

def all : List Kind :=
  [toplevel, whileLoop, foreachLoop, functionDefinition, macroDefinition, conditional, ifClause, elseifClause,
    elseClause, call, inclusion, word]

def name : Kind → String
  | toplevel => "ToplevelBody"
  | whileLoop => "WhileStatement"
  | foreachLoop => "ForeachStatement"
  | functionDefinition => "FunctionDefinition"
  | macroDefinition => "MacroDefinition"
  | conditional => "IfBlock"
  | ifClause => "IfStatement"
  | elseifClause => "ElseIfStatement"
  | elseClause => "ElseStatement"
  | call => "FunctionCall"
  | inclusion => "Include"
  | word => "Word"

def ofName? (name : String) : Option Kind := all.find? (·.name = name)

theorem ofName?_name (kind : Kind) : ofName? kind.name = some kind := by cases kind <;> decide

end Kind

def BlockForm.kind : BlockForm → Kind
  | whileLoop => .whileLoop
  | foreachLoop => .foreachLoop
  | functionDefinition => .functionDefinition
  | macroDefinition => .macroDefinition

def ClauseForm.kind : ClauseForm → Kind
  | ifClause => .ifClause
  | elseifClause => .elseifClause
  | elseClause => .elseClause

inductive Slot where
  | statements
  | header
  | body
  | footer
  | ifClause
  | elseifClauses
  | elseClause
  | arguments
deriving DecidableEq, Repr, Inhabited

namespace Slot

def all : List Slot := [statements, header, body, footer, ifClause, elseifClauses, elseClause, arguments]

def name : Slot → String
  | statements => "statements"
  | header => "header"
  | body => "body"
  | footer => "footer"
  | ifClause => "if_statement"
  | elseifClauses => "elseif_statements"
  | elseClause => "else_statement"
  | arguments => "arguments"

/-- The name of the slot where slots are values rather than members. -/
def tag : Slot → String
  | statements => "Statements"
  | header => "Header"
  | body => "Body"
  | footer => "Footer"
  | ifClause => "IfStatement"
  | elseifClauses => "ElseIfStatements"
  | elseClause => "ElseStatement"
  | arguments => "Arguments"

end Slot

end Listfile
