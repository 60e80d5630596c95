import Listfile.Source.LineIndex
import Listfile.Tree.Kind
import Listfile.Tree.WordType
import Listfile.Json.Value
/-! # The tree of a script

A node is a statement, a part of one, or the whole script, and knows where it stands. The structure of a tree
is not restricted to that of scripts: any node may be the header of a block. A node whose kind is not known
keeps the tag and the contents it came with.
-/
namespace Listfile
set_option autoImplicit false

inductive Node where
  | toplevel (place : Location) (statements : List Node)
  | block (place : Location) (form : BlockForm) (header : Node) (body : List Node) (footer : Node)
  | conditional (place : Location) (ifClause : Node) (elseifClauses : List Node) (elseClause : Option Node)
    (footer : Node)
  | clause (place : Location) (form : ClauseForm) (header : Node) (body : List Node)
  | call (place : Location) (name : String) (arguments : List Node)
  | inclusion (place : Location) (filename : String) (options : List String)
  | word (place : Location) (type : WordType) (contents : String)
  | unrecognized (place : Location) (tag : String) (payload : Json)
deriving Inhabited

namespace Node

def place : Node → Location
  | toplevel place .. | block place .. | conditional place .. | clause place .. | call place ..
  | inclusion place .. | word place .. | unrecognized place .. => place

def span (node : Node) : Span := node.place.span

def kind? : Node → Option Kind
  | toplevel .. => some .toplevel
  | block _ form .. => some form.kind
  | conditional .. => some .conditional
  | clause _ form .. => some form.kind
  | call .. => some .call
  | inclusion .. => some .inclusion
  | word .. => some .word
  | unrecognized .. => none

def tag (node : Node) : String :=
  match node, node.kind? with
  | _, some kind => kind.name
  | unrecognized _ tag _, none => tag
  | _, none => ""

/-- What a node is called: the name of a call, the file of an inclusion, the text of a word. -/
def label? : Node → Option String
  | call _ name _ => some name
  | inclusion _ filename _ => some filename
  | word _ _ contents => some contents
  | _ => none

/-- The same node under another name, if it has one. -/
def setLabel (label : String) : Node → Node
  | call place _ arguments => call place label arguments
  | inclusion place _ options => inclusion place label options
  | word place type _ => word place type label
  | other => other

/-! ## Children -/

def child? : Slot → Node → Option Node
  | .header, block _ _ header _ _ => some header
  | .footer, block _ _ _ _ footer => some footer
  | .ifClause, conditional _ ifClause _ _ _ => some ifClause
  | .elseClause, conditional _ _ _ elseClause _ => elseClause
  | .footer, conditional _ _ _ _ footer => some footer
  | .header, clause _ _ header _ => some header
  | _, _ => none

/-- Replaces the child in a slot that holds one; a slot that is empty or missing stays so. -/
def setChild : Slot → Node → Node → Node
  | .header, block place form _ body footer, child => block place form child body footer
  | .footer, block place form header body _, child => block place form header body child
  | .ifClause, conditional place _ elseifs elseClause footer, child =>
    conditional place child elseifs elseClause footer
  | .elseClause, conditional place ifClause elseifs (some _) footer, child =>
    conditional place ifClause elseifs (some child) footer
  | .footer, conditional place ifClause elseifs elseClause _, child =>
    conditional place ifClause elseifs elseClause child
  | .header, clause place form _ body, child => clause place form child body
  | _, node, _ => node

def children : Slot → Node → List Node
  | .statements, toplevel _ statements => statements
  | .body, block _ _ _ body _ => body
  | .elseifClauses, conditional _ _ elseifs _ _ => elseifs
  | .body, clause _ _ _ body => body
  | .arguments, call _ _ arguments => arguments
  | _, _ => []

/-- Replaces the children in a slot that holds a sequence of them; a slot that is missing stays so. -/
def setChildren : Slot → Node → List Node → Node
  | .statements, toplevel place _, children => toplevel place children
  | .body, block place form header _ footer, children => block place form header children footer
  | .elseifClauses, conditional place ifClause _ elseClause footer, children =>
    conditional place ifClause children elseClause footer
  | .body, clause place form header _, children => clause place form header children
  | .arguments, call place name _, children => call place name children
  | _, node, _ => node

/-! ## Size and equality -/

mutual

def size : Node → Nat
  | toplevel _ statements => sizeAll statements + 1
  | block _ _ header body footer => header.size + sizeAll body + footer.size + 1
  | conditional _ ifClause elseifs elseClause footer =>
    ifClause.size + sizeAll elseifs + sizeOption elseClause + footer.size + 1
  | clause _ _ header body => header.size + sizeAll body + 1
  | call _ _ arguments => sizeAll arguments + 1
  | inclusion .. | word .. | unrecognized .. => 1

def sizeAll : List Node → Nat
  | [] => 0
  | node :: rest => node.size + sizeAll rest

def sizeOption : Option Node → Nat
  | none => 0
  | some node => node.size

end

mutual

/-- Equality of trees, up to the sign of zeros within unknown contents. -/
def beq : Node → Node → Bool
  | toplevel p statements, toplevel q statements' => p == q && beqAll statements statements'
  | block p form header body footer, block q form' header' body' footer' =>
    p == q && form == form' && beq header header' && beqAll body body' && beq footer footer'
  | conditional p ifClause elseifs elseClause footer, conditional q ifClause' elseifs' elseClause' footer' =>
    p == q && beq ifClause ifClause' && beqAll elseifs elseifs' && beqOption elseClause elseClause' &&
      beq footer footer'
  | clause p form header body, clause q form' header' body' =>
    p == q && form == form' && beq header header' && beqAll body body'
  | call p name arguments, call q name' arguments' => p == q && name == name' && beqAll arguments arguments'
  | inclusion p filename options, inclusion q filename' options' =>
    p == q && filename == filename' && options == options'
  | word p type contents, word q type' contents' => p == q && type == type' && contents == contents'
  | unrecognized p tag payload, unrecognized q tag' payload' => p == q && tag == tag' && payload == payload'
  | _, _ => false

def beqAll : List Node → List Node → Bool
  | [], [] => true
  | a :: as, b :: bs => beq a b && beqAll as bs
  | _, _ => false

def beqOption : Option Node → Option Node → Bool
  | none, none => true
  | some a, some b => beq a b
  | _, _ => false

end

instance : BEq Node := ⟨beq⟩

theorem size_pos (node : Node) : 0 < node.size := by cases node <;> simp [size]

/-- Replacing a child changes the size of a node by as much as the size of the child. -/
theorem size_setChild {slot : Slot} {node child : Node} (h : node.child? slot = some child) (child' : Node) :
    (setChild slot node child').size + child.size = node.size + child'.size := by
  unfold child? at h
  split at h <;> cases h <;> simp [setChild, size, sizeOption] <;> omega

theorem size_lt_of_child? {slot : Slot} {node child : Node} (h : node.child? slot = some child) :
    child.size < node.size := by
  unfold child? at h
  split at h <;> cases h <;> simp [size, sizeOption] <;> omega

theorem sizeAll_children_lt (slot : Slot) (node : Node) : sizeAll (node.children slot) < node.size := by
  unfold children
  split <;> simp [size, sizeAll] <;> first | omega | exact size_pos _

theorem size_le_sizeAll {node : Node} {nodes : List Node} (h : node ∈ nodes) : node.size ≤ sizeAll nodes := by
  induction nodes with
  | nil => cases h
  | cons first rest ih =>
    rcases List.mem_cons.mp h with rfl | h
    · simp [sizeAll]
    · have := ih h
      simp only [sizeAll]
      omega

/-- Children that have not grown do not make their parent grow. -/
theorem size_setChildren_le {slot : Slot} {node : Node} {children' : List Node}
    (h : sizeAll children' ≤ sizeAll (node.children slot)) : (setChildren slot node children').size ≤ node.size := by
  unfold setChildren
  split <;> simp [size, children] at h ⊢ <;> omega

/-- The nodes of a tree of at most the given depth, each before its children, which come in the order of their
slots. -/
def reachableWithin : Nat → Node → List Node
  | 0, _ => []
  | depth + 1, node =>
    node :: Slot.all.flatMap fun slot =>
      (node.child? slot).toList.flatMap (reachableWithin depth) ++
        (node.children slot).flatMap (reachableWithin depth)

def reachable (node : Node) : List Node := reachableWithin node.size node

end Node

end Listfile
