import Listfile.Proofs.Tree.Replacement
import Listfile.Proofs.Walk.Order
/-! # Trees of one shape at every depth

Two trees have the same skeleton if they have nodes at the same positions, and of the same kinds there. What the nodes
say otherwise may differ at every depth. A walk reaches the same positions of both, in the same order.
-/
namespace Listfile.Node
set_option autoImplicit false

def SameSkeleton (a b : Node) : Prop := ∀ path, (a.nodeAt? path).map kind? = (b.nodeAt? path).map kind?

/-- The positions that a walk reaches, in their order. -/
def positions (root : Node) : List Path := root.walkOrder.map Prod.fst

theorem mem_positions {root : Node} {path : Path} : path ∈ root.positions ↔ ∃ node, root.At path node := by
  simp [positions, mem_walkOrder]

theorem pairwise_positions (root : Node) : root.positions.Pairwise root.Precedes :=
  List.pairwise_map.mpr root.pairwise_walkOrder

theorem nodup_positions (root : Node) : root.positions.Nodup := by
  refine root.pairwise_positions.imp ?_
  rintro path _ hBefore rfl
  exact Precedes.irrefl root path hBefore

theorem positions_eq (node : Node) :
    node.positions = [] :: node.successors.flatMap fun edge => edge.2.positions.map (edge.1 :: ·) := by
  rw [positions, walkOrder_eq, List.map_cons, List.map_flatMap]
  simp only [positions, List.map_map]
  rfl

theorem sizeAll_perm {nodes others : List Node} (h : nodes.Perm others) : sizeAll nodes = sizeAll others := by
  induction h with
  | nil => rfl
  | cons node _ ih => rw [sizeAll, sizeAll, ih]
  | swap a b rest =>
    simp only [sizeAll]
    omega
  | trans _ _ ih ih' => exact ih.trans ih'

/-- A walk comes to as many positions as the tree has nodes. -/
theorem length_positions (root : Node) : root.positions.length = root.size := by
  induction hSize : root.size using Nat.strongRecOn generalizing root with
  | ind size ih =>
    have hBelow (edges : List (Step × Node)) (hEdges : ∀ edge ∈ edges, edge.2.size < size) :
        (edges.flatMap fun edge => edge.2.positions.map (edge.1 :: ·)).length = sizeAll (edges.map Prod.snd) := by
      induction edges with
      | nil => rfl
      | cons edge rest ihRest =>
        obtain ⟨hFirst, hRest⟩ := List.forall_mem_cons.mp hEdges
        rw [List.flatMap_cons, List.length_append, List.length_map, ih _ hFirst _ rfl, ihRest hRest, List.map_cons,
          sizeAll]
    have hEdges : ∀ edge ∈ root.successors, edge.2.size < size := fun edge hEdge =>
      hSize ▸ size_lt_of_mem_successors hEdge
    rw [positions_eq, List.length_cons, hBelow _ hEdges, sizeAll_perm (root.perm_successors_stored.map Prod.snd),
      ← size_eq_stored, hSize]

namespace SameSkeleton

theorem refl (node : Node) : node.SameSkeleton node := fun _ => rfl

variable {a b : Node} (h : a.SameSkeleton b)

include h

theorem symm : b.SameSkeleton a := fun path => (h path).symm

theorem trans {c : Node} (h' : b.SameSkeleton c) : a.SameSkeleton c := fun path => (h path).trans (h' path)

theorem kind? : a.kind? = b.kind? := Option.some.inj (h [])

theorem exists_at {path : Path} {node : Node} (hAt : a.At path node) :
    ∃ node', b.At path node' ∧ node'.kind? = node.kind? := by
  have hKind := h path
  rw [nodeAt?_eq_some.mpr hAt, Option.map_some] at hKind
  obtain ⟨node', hNode, hKind⟩ := Option.map_eq_some_iff.mp hKind.symm
  exact ⟨node', nodeAt?_eq_some.mp hNode, hKind⟩

theorem precedes {p q : Path} (hBefore : a.Precedes p q) : b.Precedes p q := by
  rcases hBefore with hPrefix | ⟨common, parent, kind, stepP, stepQ, p', q', hParent, hKind, hSteps⟩
  · exact .inl hPrefix
  · obtain ⟨parent', hParent', hKind'⟩ := h.exists_at hParent
    exact .inr ⟨common, parent', kind, stepP, stepQ, p', q', hParent', hKind'.trans hKind, hSteps⟩

/-- Both lists of positions have the same members, and there is only one order of them. -/
theorem positions_eq : a.positions = b.positions := by
  have hMem (path : Path) : path ∈ a.positions ↔ path ∈ b.positions := by
    rw [mem_positions, mem_positions]
    constructor
    · rintro ⟨node, hAt⟩
      obtain ⟨node', hAt', -⟩ := h.exists_at hAt
      exact ⟨node', hAt'⟩
    · rintro ⟨node, hAt⟩
      obtain ⟨node', hAt', -⟩ := h.symm.exists_at hAt
      exact ⟨node', hAt'⟩
  have hPerm : a.positions.Perm b.positions :=
    (List.perm_ext_iff_of_nodup a.nodup_positions b.nodup_positions).mpr hMem
  refine hPerm.eq_of_pairwise ?_ (a.pairwise_positions.imp h.precedes) b.pairwise_positions
  intro p q _ _ hBefore hAfter
  exact absurd hAfter hBefore.asymm

theorem size_eq : a.size = b.size := by
  rw [← length_positions, ← length_positions, h.positions_eq]

end SameSkeleton

/-! ## Replacing a part -/

theorem sameSkeleton_replaceStep {node child new : Node} {step : Step} (hGet : node.get? step = some child)
    (h : new.SameSkeleton child) : (node.replaceStep step new).SameSkeleton node := by
  intro path
  cases path with
  | nil => exact congrArg some (kind?_replaceStep node step new)
  | cons step' path =>
    by_cases hStep : step' = step
    · rw [hStep, nodeAt?_cons (get?_replaceStep_self new hGet), nodeAt?_cons hGet]
      exact h path
    · rw [nodeAt?, nodeAt?, get?_replaceStep_of_ne new hGet hStep]

theorem sameSkeleton_replaceAt {root node new : Node} {path : Path} (hAt : root.At path node)
    (h : new.SameSkeleton node) : (root.replaceAt path new).SameSkeleton root := by
  induction hAt with
  | here node => exact h
  | step hStored _ ih =>
    have hGet := mem_stored.mp hStored
    rw [replaceAt, hGet]
    exact sameSkeleton_replaceStep hGet (ih h)

end Listfile.Node
