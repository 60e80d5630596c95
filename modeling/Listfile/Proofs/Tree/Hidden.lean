import Listfile.Diagnostic
import Listfile.Proofs.Tree.Position
/-! # Trees without what they hide

The tag and the contents of a node of unknown kind are hidden. Two trees without them are the same if they are equal
but for what such nodes hold; the children of two nodes of which this is true correspond, and they can be exchanged.
-/
namespace Listfile
set_option autoImplicit false

/-- The same condition, without the tag of a node of unknown kind. -/
def Diagnostic.hide : Diagnostic → Diagnostic
  | unrecognizedNode _ span => unrecognizedNode "" span
  | other => other

def Diagnostics.hide (diagnostics : Diagnostics) : Diagnostics :=
  { diagnostics with records := diagnostics.records.map Diagnostic.hide }

theorem Diagnostics.hide_report (diagnostics : Diagnostics) (diagnostic : Diagnostic) :
    (diagnostics.report diagnostic).hide = diagnostics.hide.report diagnostic.hide := by
  unfold report hide
  simp only
  split
  · rw [List.map_append, List.map_singleton]
  · rfl

namespace Node

mutual

/-- The tree in which every node of unknown kind has an empty tag and no contents. -/
def hide : Node → Node
  | toplevel place statements => toplevel place (hideAll statements)
  | block place form header body footer => block place form (hide header) (hideAll body) (hide footer)
  | conditional place ifClause elseifs elseClause footer =>
    conditional place (hide ifClause) (hideAll elseifs) (hideOption elseClause) (hide footer)
  | clause place form header body => clause place form (hide header) (hideAll body)
  | call place name arguments => call place name (hideAll arguments)
  | inclusion place filename options => inclusion place filename options
  | word place type contents => word place type contents
  | unrecognized place _ _ => unrecognized place "" .null

def hideAll : List Node → List Node
  | [] => []
  | node :: rest => hide node :: hideAll rest

def hideOption : Option Node → Option Node
  | none => none
  | some node => some (hide node)

end

theorem hideAll_eq (nodes : List Node) : hideAll nodes = nodes.map hide := by
  induction nodes with
  | nil => rfl
  | cons node rest ih => rw [hideAll, ih, List.map_cons]

theorem hideOption_eq (node : Option Node) : hideOption node = node.map hide := by cases node <;> rfl

variable (node : Node) (slot : Slot)

theorem kind?_hide : node.hide.kind? = node.kind? := by cases node <;> rfl

theorem span_hide : node.hide.span = node.span := by cases node <;> rfl

theorem child?_hide : node.hide.child? slot = (node.child? slot).map hide := by
  cases node <;> cases slot <;> simp [hide, child?, hideOption_eq]

theorem children_hide : node.hide.children slot = (node.children slot).map hide := by
  cases node <;> cases slot <;> simp [hide, children, hideAll_eq]

theorem hide_setChild (child : Node) : (node.setChild slot child).hide = node.hide.setChild slot child.hide := by
  cases node with
  | conditional place ifClause elseifs elseClause footer =>
    cases elseClause <;> cases slot <;> simp [hide, setChild, hideOption]
  | _ => cases slot <;> simp [hide, setChild]

theorem hide_setChildren (nodes : List Node) :
    (node.setChildren slot nodes).hide = node.hide.setChildren slot (nodes.map hide) := by
  cases node <;> cases slot <;> simp [hide, setChildren, hideAll_eq]

end Node
end Listfile
