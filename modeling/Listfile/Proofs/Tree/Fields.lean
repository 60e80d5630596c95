import Listfile.Assignment
import Listfile.Proofs.Tree.Everywhere
import Listfile.Proofs.Walk.Order
/-! # Trees with other data

What is put in the place of places, of the names of calls and of what nodes of unknown kind hold leaves the structure
of a tree as it is: nodes keep their kinds, their children correspond, and a walk comes to the same positions. The tree
itself stays as it is if the same data is put there.
-/
namespace Listfile
set_option autoImplicit false

/-- What becomes of the data of a node. -/
structure FieldMap where
  place : Location → Location := id
  command : String → String := id
  payload : Json → Json := id

namespace Node

variable (f : FieldMap)

mutual

def mapFields : Node → Node
  | toplevel place statements => toplevel (f.place place) (mapFieldsAll statements)
  | block place form header body footer =>
    block (f.place place) form (mapFields header) (mapFieldsAll body) (mapFields footer)
  | conditional place ifClause elseifs elseClause footer =>
    conditional (f.place place) (mapFields ifClause) (mapFieldsAll elseifs) (mapFieldsOption elseClause)
      (mapFields footer)
  | clause place form header body => clause (f.place place) form (mapFields header) (mapFieldsAll body)
  | call place name arguments => call (f.place place) (f.command name) (mapFieldsAll arguments)
  | inclusion place filename options => inclusion (f.place place) filename options
  | word place type contents => word (f.place place) type contents
  | unrecognized place tag payload => unrecognized (f.place place) tag (f.payload payload)

def mapFieldsAll : List Node → List Node
  | [] => []
  | node :: rest => mapFields node :: mapFieldsAll rest

def mapFieldsOption : Option Node → Option Node
  | none => none
  | some node => some (mapFields node)

end

theorem mapFieldsAll_eq (nodes : List Node) : mapFieldsAll f nodes = nodes.map (mapFields f) := by
  induction nodes with
  | nil => rfl
  | cons node rest ih => rw [mapFieldsAll, ih, List.map_cons]

theorem mapFieldsOption_eq (node : Option Node) : mapFieldsOption f node = node.map (mapFields f) := by
  cases node <;> rfl

variable (node : Node) (slot : Slot)

theorem place_mapFields : (node.mapFields f).place = f.place node.place := by cases node <;> rfl

theorem kind?_mapFields : (node.mapFields f).kind? = node.kind? := by cases node <;> rfl

theorem literal?_mapFields : (node.mapFields f).literal? = node.literal? := by cases node <;> rfl

theorem child?_mapFields : (node.mapFields f).child? slot = (node.child? slot).map (mapFields f) := by
  cases node <;> cases slot <;> simp [mapFields, child?, mapFieldsOption_eq]

theorem children_mapFields : (node.mapFields f).children slot = (node.children slot).map (mapFields f) := by
  cases node <;> cases slot <;> simp [mapFields, children, mapFieldsAll_eq]

theorem get?_mapFields (step : Step) : (node.mapFields f).get? step = (node.get? step).map (mapFields f) := by
  rw [get?, get?, inSlot, inSlot, child?_mapFields, children_mapFields, Option.toList_map, ← List.map_append,
    List.getElem?_map]

theorem nodeAt?_mapFields (root : Node) (path : Path) :
    (root.mapFields f).nodeAt? path = (root.nodeAt? path).map (mapFields f) := by
  induction path generalizing root with
  | nil => rfl
  | cons step path ih =>
    rw [nodeAt?, nodeAt?, get?_mapFields]
    cases root.get? step with
    | none => rfl
    | some child => exact ih child

/-- The nodes of a tree with other data are those of the tree, with other data. -/
theorem at_mapFields {root target : Node} {path : Path} :
    (root.mapFields f).At path target ↔ ∃ node, root.At path node ∧ node.mapFields f = target := by
  simp only [← nodeAt?_eq_some, nodeAt?_mapFields, Option.map_eq_some_iff]

theorem successors_mapFields :
    (node.mapFields f).successors = node.successors.map fun edge => (edge.1, edge.2.mapFields f) := by
  cases hKind : node.kind? with
  | none => simp [successors, kind?_mapFields, hKind]
  | some kind =>
    simp only [successors, kind?_mapFields, hKind, child?_mapFields, children_mapFields, List.map_append,
      List.map_flatMap, enumerateFrom_map]
    congr 1
    refine List.flatMap_congr fun slot _ => ?_
    cases node.child? slot <;> rfl

/-- A walk comes to the same positions, and finds there what was there before, with the other data. -/
theorem walkOrder_mapFields (root : Node) :
    (root.mapFields f).walkOrder = root.walkOrder.map fun entry => (entry.1, entry.2.mapFields f) :=
  walkOrder_map (fun _ node => successors_mapFields f node) [] root

/-! ## The same data -/

/-- Whether the same is put in the place of what a node of unknown kind holds. -/
def SamePayload (f g : Json → Json) : Node → Prop
  | unrecognized _ _ payload => f payload = g payload
  | _ => True

section congr

variable {f g : Json → Json}

mutual

theorem mapFields_congr (node : Node) (h : node.Everywhere (SamePayload f g)) :
    node.mapFields { payload := f } = node.mapFields { payload := g } := by
  cases node with
  | toplevel place statements => rw [mapFields, mapFields, mapFieldsAll_congr statements (everywhere_toplevel.mp h).2]
  | block place form header body footer =>
    obtain ⟨-, hHeader, hBody, hFooter⟩ := everywhere_block.mp h
    rw [mapFields, mapFields, mapFields_congr header hHeader, mapFieldsAll_congr body hBody,
      mapFields_congr footer hFooter]
  | conditional place ifClause elseifs elseClause footer =>
    obtain ⟨-, hIf, hElseifs, hElse, hFooter⟩ := everywhere_conditional.mp h
    rw [mapFields, mapFields, mapFields_congr ifClause hIf, mapFieldsAll_congr elseifs hElseifs,
      mapFieldsOption_congr elseClause hElse, mapFields_congr footer hFooter]
  | clause place form header body =>
    obtain ⟨-, hHeader, hBody⟩ := everywhere_clause.mp h
    rw [mapFields, mapFields, mapFields_congr header hHeader, mapFieldsAll_congr body hBody]
  | call place name arguments => rw [mapFields, mapFields, mapFieldsAll_congr arguments (everywhere_call.mp h).2]
  | inclusion | word => rfl
  | unrecognized place tag payload =>
    have hPayload : f payload = g payload := h.self
    exact congrArg (unrecognized place tag) hPayload

theorem mapFieldsAll_congr (nodes : List Node) (h : ∀ node ∈ nodes, node.Everywhere (SamePayload f g)) :
    mapFieldsAll { payload := f } nodes = mapFieldsAll { payload := g } nodes := by
  cases nodes with
  | nil => rfl
  | cons first rest =>
    obtain ⟨hFirst, hRest⟩ := List.forall_mem_cons.mp h
    rw [mapFieldsAll, mapFieldsAll, mapFields_congr first hFirst, mapFieldsAll_congr rest hRest]

theorem mapFieldsOption_congr (child : Option Node) (h : ∀ node ∈ child, node.Everywhere (SamePayload f g)) :
    mapFieldsOption { payload := f } child = mapFieldsOption { payload := g } child := by
  cases child with
  | none => rfl
  | some first => rw [mapFieldsOption, mapFieldsOption, mapFields_congr first (h first rfl)]

end

end congr

mutual

theorem mapFields_id (node : Node) : node.mapFields {} = node := by
  cases node with
  | block _ _ header body footer =>
    rw [mapFields, mapFields_id header, mapFieldsAll_id body, mapFields_id footer]
    rfl
  | conditional _ ifClause elseifs elseClause footer =>
    rw [mapFields, mapFields_id ifClause, mapFieldsAll_id elseifs, mapFieldsOption_id elseClause, mapFields_id footer]
    rfl
  | clause _ _ header body =>
    rw [mapFields, mapFields_id header, mapFieldsAll_id body]
    rfl
  | toplevel _ nodes | call _ _ nodes =>
    rw [mapFields, mapFieldsAll_id nodes]
    rfl
  | inclusion | word | unrecognized => rfl

theorem mapFieldsAll_id (nodes : List Node) : mapFieldsAll {} nodes = nodes := by
  cases nodes with
  | nil => rfl
  | cons first rest => rw [mapFieldsAll, mapFields_id first, mapFieldsAll_id rest]

theorem mapFieldsOption_id (child : Option Node) : mapFieldsOption {} child = child := by
  cases child with
  | none => rfl
  | some first => rw [mapFieldsOption, mapFields_id first]

end

end Node
end Listfile
