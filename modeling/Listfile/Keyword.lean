/-! # Commands that shape a script

Most commands are plain invocations. A few open, continue or close a block, and one includes a file. Their
names are recognised whatever the case of their ASCII letters.
-/
namespace Listfile
set_option autoImplicit false

def lowerCase (name : String) : String := String.ofList (name.toList.map Char.toLower)

/-- Equality of command names: the case of ASCII letters is ignored. -/
def sameCommand (a b : String) : Bool := lowerCase a == lowerCase b

/-- The constructs that run from one opening command to one closing command. -/
inductive BlockForm where
  | whileLoop
  | foreachLoop
  | functionDefinition
  | macroDefinition
deriving DecidableEq, Repr, Inhabited

/-- The arms of a conditional. -/
inductive ClauseForm where
  | ifClause
  | elseifClause
  | elseClause
deriving DecidableEq, Repr, Inhabited

/-- The commands that close a block or start its next arm. -/
inductive Terminator where
  | elseifBranch
  | elseBranch
  | endConditional
  | endBlock (form : BlockForm)
deriving DecidableEq, Repr, Inhabited

def Terminator.name : Terminator → String
  | elseifBranch => "elseif"
  | elseBranch => "else"
  | endConditional => "endif"
  | endBlock .whileLoop => "endwhile"
  | endBlock .foreachLoop => "endforeach"
  | endBlock .functionDefinition => "endfunction"
  | endBlock .macroDefinition => "endmacro"

inductive Keyword where
  | openConditional
  | openBlock (form : BlockForm)
  | inclusion
  | terminator (terminator : Terminator)
deriving DecidableEq, Repr, Inhabited

/-- What a command name stands for, if it is not a plain command. -/
def Keyword.ofName? (name : String) : Option Keyword :=
  match lowerCase name with
  | "if" => some .openConditional
  | "while" => some (.openBlock .whileLoop)
  | "foreach" => some (.openBlock .foreachLoop)
  | "function" => some (.openBlock .functionDefinition)
  | "macro" => some (.openBlock .macroDefinition)
  | "include" => some .inclusion
  | "elseif" => some (.terminator .elseifBranch)
  | "else" => some (.terminator .elseBranch)
  | "endif" => some (.terminator .endConditional)
  | "endwhile" => some (.terminator (.endBlock .whileLoop))
  | "endforeach" => some (.terminator (.endBlock .foreachLoop))
  | "endfunction" => some (.terminator (.endBlock .functionDefinition))
  | "endmacro" => some (.terminator (.endBlock .macroDefinition))
  | _ => none

/-- The terminators are exactly the names that close or continue a block. -/
theorem Keyword.ofName?_terminator (t : Terminator) : ofName? t.name = some (.terminator t) := by
  rcases t with _ | _ | _ | (_ | _ | _ | _) <;> decide +kernel

end Listfile
