import Listfile.Proofs.Tree.Replacement
import Listfile.Tree.Export
/-! # Where an exported tree has its nodes

The object that is written for a node stands, in what is written for the tree, at the end of the path that leads to
the node. A step goes through the kind of the object, to the member with the name of the slot and to its element if
that member is a sequence.
-/
namespace Listfile
set_option autoImplicit false

namespace Json

def member? (name : String) : Json → Option Json
  | object members => members.lookup name
  | _ => none

/-- The value of the only member of an object. -/
def only? : Json → Option Json
  | object [(_, value)] => some value
  | _ => none

/-- An element of a sequence; any other value has only itself. -/
def element? (index : Nat) : Json → Option Json
  | array elements => elements[index]?
  | value => if index = 0 then some value else none

def goTo? (step : Step) (node : Json) : Option Json := do
  let kind ← node.member? "kind"
  let payload ← kind.only?
  let value ← payload.member? step.slot.name
  value.element? step.index

def at? : Path → Json → Option Json
  | [], node => some node
  | step :: path, node => (node.goTo? step).bind (at? path)

end Json

namespace Node

theorem goTo?_toJson (node : Node) (step : Step) :
    node.toJson.goTo? step = (node.payload.member? step.slot.name).bind (Json.element? step.index) := rfl

theorem elements_getElem? (nodes : List Node) (index : Nat) :
    (elements nodes)[index]? = nodes[index]?.map toJson := by
  induction nodes generalizing index with
  | nil => rfl
  | cons node rest ih =>
    cases index with
    | zero => rfl
    | succ index => exact ih index

variable {node child : Node} {slot : Slot} {step : Step}

theorem member?_of_child? (h : node.child? slot = some child) :
    node.payload.member? slot.name = some child.toJson := by
  unfold child? at h
  split at h <;> cases h <;> rfl

theorem member?_of_children (h : node.children slot ≠ []) :
    node.payload.member? slot.name = some (.array (elements (node.children slot))) := by
  revert h
  unfold children
  split
  case h_6 => exact fun h => absurd rfl h
  all_goals exact fun _ => rfl

theorem toJson_goTo? (h : (step, child) ∈ node.stored) : node.toJson.goTo? step = some child.toJson := by
  rw [goTo?_toJson]
  obtain ⟨hChild, hIndex⟩ | ⟨hIndex, hChildren⟩ := get?_cases (mem_stored.mp h)
  · rw [member?_of_child? hChild, hIndex]
    rfl
  · rw [member?_of_children hChildren, Option.bind_some, Json.element?, elements_getElem?, hIndex, Option.map_some]

/-- What is written for a node stands where the node does. -/
theorem at?_toJson {root : Node} {path : Path} (h : root.At path node) : root.toJson.at? path = some node.toJson := by
  induction h with
  | here => rfl
  | step hStored _ ih => rw [Json.at?, toJson_goTo? hStored, Option.bind_some, ih]

end Node
end Listfile
