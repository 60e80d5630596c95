import Listfile.Tree.Node
/-! # Trees at other places

The tree that has other places, each found from the one that a node had, and is otherwise the same.
-/
namespace Listfile
set_option autoImplicit false

/-- A place after as many more bytes and lines, if the line that it is on starts among these. -/
def Location.moved (bytes lines : Nat) (place : Location) : Location :=
  ⟨⟨place.span.start + bytes, place.span.stop + bytes⟩, ⟨place.position.line + lines, place.position.column⟩⟩

/-- A place as seen from an earlier one: columns are counted from there on the same line only. -/
def Location.seenFrom (origin place : Location) : Location :=
  let span : Span := ⟨place.span.start - origin.span.start, place.span.stop - origin.span.start⟩
  let line := place.position.line - (origin.position.line - 1)
  if place.position.line = origin.position.line then
    ⟨span, ⟨line, place.position.column - (origin.position.column - 1)⟩⟩
  else ⟨span, ⟨line, place.position.column⟩⟩

namespace Node

variable (relocate : Location → Location)

mutual

def mapPlaces : Node → Node
  | toplevel place statements => toplevel (relocate place) (mapPlacesAll statements)
  | block place form header body footer =>
    block (relocate place) form (mapPlaces header) (mapPlacesAll body) (mapPlaces footer)
  | conditional place ifClause elseifs elseClause footer =>
    conditional (relocate place) (mapPlaces ifClause) (mapPlacesAll elseifs) (mapPlacesOption elseClause)
      (mapPlaces footer)
  | clause place form header body => clause (relocate place) form (mapPlaces header) (mapPlacesAll body)
  | call place name arguments => call (relocate place) name (mapPlacesAll arguments)
  | inclusion place filename options => inclusion (relocate place) filename options
  | word place type contents => word (relocate place) type contents
  | unrecognized place tag payload => unrecognized (relocate place) tag payload

def mapPlacesAll : List Node → List Node
  | [] => []
  | node :: rest => mapPlaces node :: mapPlacesAll rest

def mapPlacesOption : Option Node → Option Node
  | none => none
  | some node => some (mapPlaces node)

end

theorem mapPlacesAll_eq (nodes : List Node) : mapPlacesAll relocate nodes = nodes.map (mapPlaces relocate) := by
  induction nodes with
  | nil => rfl
  | cons node rest ih => rw [mapPlacesAll, ih, List.map_cons]

theorem mapPlacesOption_eq (node : Option Node) : mapPlacesOption relocate node = node.map (mapPlaces relocate) := by
  cases node <;> rfl

theorem place_mapPlaces (node : Node) : (node.mapPlaces relocate).place = relocate node.place := by
  cases node <;> rfl

mutual

theorem mapPlaces_id (node : Node) : node.mapPlaces id = node := by
  cases node with
  | toplevel => simp [mapPlaces, mapPlacesAll_id]
  | block => simp [mapPlaces, mapPlaces_id, mapPlacesAll_id]
  | conditional _ _ _ elseClause =>
    cases elseClause <;> simp [mapPlaces, mapPlaces_id, mapPlacesAll_id, mapPlacesOption]
  | clause => simp [mapPlaces, mapPlaces_id, mapPlacesAll_id]
  | call => simp [mapPlaces, mapPlacesAll_id]
  | _ => rfl

theorem mapPlacesAll_id (nodes : List Node) : mapPlacesAll id nodes = nodes := by
  cases nodes with
  | nil => rfl
  | cons node rest => simp [mapPlacesAll, mapPlaces_id, mapPlacesAll_id]

end

/-- The tree as it stands in a text with as many more bytes and lines in front. -/
def moved (bytes lines : Nat) (node : Node) : Node := node.mapPlaces (Location.moved bytes lines)

/-- The tree as it stands in a text that starts where its root does. -/
def alone (node : Node) : Node := node.mapPlaces node.place.seenFrom

end Node
end Listfile
