import Listfile.Walk.Collect
/-! # Listing a tree

A listing has a line for each node of the chosen kinds, in the order in which nodes are visited: its depth,
as many blanks, its kind and its position, and for a call, an inclusion or a word what it is called.
-/
namespace Listfile
set_option autoImplicit false

/-- What a line says about a node beyond its kind. -/
def Node.detail? : Node → Option String
  | call _ name _ => some name
  | inclusion _ filename _ => some filename
  | word _ type contents => some (type.name ++ " " ++ contents)
  | _ => none

/-- A line and a column as a listing writes them. -/
def Position.text (position : Position) : String :=
  "(" ++ toString position.line ++ ":" ++ toString position.column ++ ")"

def dumpLine (visit : Visit) (node : Node) : String :=
  let line := toString visit.depth ++ String.ofList (List.replicate visit.depth ' ') ++ " " ++ visit.kind.name ++
    " " ++ node.place.position.text
  match node.detail? with
  | none => line
  | some detail => line ++ " [" ++ detail ++ "]"

/-- The keys of the nodes that are listed if none are chosen: all but that of the whole script. -/
def defaultDumpKeys : List HandlerKey := HandlerKey.all.filter (· ≠ .toplevel)

/-- The lines for the nodes of a tree whose keys are chosen, or for the default ones if none are. -/
def dump (only : List HandlerKey) (root : Node) : List String :=
  Walk.collect dumpLine (if only.isEmpty then defaultDumpKeys else only) root

end Listfile
