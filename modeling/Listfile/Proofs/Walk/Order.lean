import Mathlib.Data.List.Basic
import Listfile.Proofs.Tree.Position
/-! # The order of a walk

A walk reaches a node before what is below it, and goes into the slots of a node as the schema of its kind has
them. Here the list of what it reaches is given by recursion, and the order of that list is said of two positions
alone, without the recursion: an ancestor comes first, and otherwise the first step in which they differ decides.
-/
namespace Listfile
set_option autoImplicit false

/-- The slots of a kind: those that hold one child, then those that hold a sequence, each as declared. -/
def Kind.slots (kind : Kind) : List Slot := kind.schema.single ++ kind.schema.multi

/-- Whether a step comes before another in the schema of a kind: in an earlier slot, or earlier in the same one. -/
def Kind.StepBefore (kind : Kind) (a b : Step) : Prop :=
  kind.slots.idxOf a.slot < kind.slots.idxOf b.slot ∨ a.slot = b.slot ∧ a.index < b.index

theorem Kind.StepBefore.irrefl (kind : Kind) (step : Step) : ¬kind.StepBefore step step := by
  rintro (h | ⟨-, h⟩) <;> exact absurd h (Nat.lt_irrefl _)

theorem Kind.StepBefore.ne {kind : Kind} {a b : Step} (h : kind.StepBefore a b) : a ≠ b :=
  fun hEq => irrefl kind b (hEq ▸ h)

theorem Kind.StepBefore.asymm {kind : Kind} {a b : Step} (h : kind.StepBefore a b) : ¬kind.StepBefore b a := by
  rcases h with h | ⟨hSlot, h⟩ <;> rintro (h' | ⟨hSlot', h'⟩)
  · omega
  · rw [hSlot'] at h; omega
  · rw [hSlot] at h'; omega
  · omega

theorem Kind.StepBefore.not_prefix {kind : Kind} {a b : Step} (h : kind.StepBefore a b) (common p q : Path) :
    ¬common ++ b :: q <+: common ++ a :: p := by
  rw [List.prefix_append_right_inj, List.cons_prefix_cons]
  rintro ⟨rfl, -⟩
  exact irrefl kind b h

theorem Kind.pairwise_slots (kind : Kind) :
    kind.slots.Pairwise fun a b => kind.slots.idxOf a < kind.slots.idxOf b := by
  cases kind <;> decide

theorem Kind.nodup_slots (kind : Kind) : kind.slots.Nodup := by
  cases kind <;> decide

namespace Node

/-- Whether a walk of the tree comes to one position before another: to what is above the other, or by an earlier
step where the two paths part. -/
def Precedes (root : Node) (p q : Path) : Prop :=
  (p <+: q ∧ p ≠ q) ∨
    ∃ common parent kind a b p' q', root.At common parent ∧ parent.kind? = some kind ∧ kind.StepBefore a b ∧
      p = common ++ a :: p' ∧ q = common ++ b :: q'

theorem size_lt_of_mem_successors {node child : Node} {step : Step} (h : (step, child) ∈ node.successors) :
    child.size < node.size := size_lt_of_mem_stored (node.perm_successors_stored.mem_iff.mp h)

/-- What a walk reaches, with its positions: each node before what is below it. -/
def walkOrder (node : Node) : List (Path × Node) :=
  ([], node) :: node.successors.attach.flatMap fun ⟨(step, child), _⟩ =>
    (walkOrder child).map fun (path, target) => (step :: path, target)
termination_by node.size
decreasing_by exact size_lt_of_mem_successors ‹_›

theorem walkOrder_eq (node : Node) :
    node.walkOrder = ([], node) :: node.successors.flatMap fun edge =>
      edge.2.walkOrder.map (Prod.map (edge.1 :: ·) id) := by
  rw [walkOrder]
  simp [List.flatMap_subtype (g := fun edge : Step × Node => edge.2.walkOrder.map (Prod.map (edge.1 :: ·) id)),
    Prod.map]

/-- Where each node of a tree is put in the place of another, with what is below it, a walk comes to the same
positions. -/
theorem walkOrder_map {f : Path → Node → Node}
    (h : ∀ path node, (f path node).successors = node.successors.map fun edge => (edge.1, f (path ++ [edge.1]) edge.2))
    (path : Path) (root : Node) :
    (f path root).walkOrder = root.walkOrder.map fun entry => (entry.1, f (path ++ entry.1) entry.2) := by
  induction hSize : root.size using Nat.strongRecOn generalizing root path with
  | ind size ih =>
    rw [walkOrder_eq, walkOrder_eq root, h, List.map_cons, List.map_flatMap, List.flatMap_map, List.append_nil]
    congr 1
    refine List.flatMap_congr fun edge hEdge => ?_
    rw [ih edge.2.size (hSize ▸ size_lt_of_mem_successors hEdge) _ edge.2 rfl, List.map_map, List.map_map]
    simp [Function.comp_def]

/-- A walk reaches every position of a tree, and nothing else. -/
theorem mem_walkOrder {root target : Node} {path : Path} :
    (path, target) ∈ root.walkOrder ↔ root.At path target := by
  constructor
  · intro h
    induction hSize : root.size using Nat.strongRecOn generalizing root path with
    | ind size ih =>
      rw [walkOrder_eq, List.mem_cons, List.mem_flatMap] at h
      rcases h with h | ⟨⟨step, child⟩, hEdge, h⟩
      · cases h
        exact .here _
      · obtain ⟨⟨path', target'⟩, hMem, hEq⟩ := List.mem_map.mp h
        cases hEq
        have hLt := size_lt_of_mem_successors hEdge
        exact .step (root.perm_successors_stored.mem_iff.mp hEdge) (ih child.size (hSize ▸ hLt) hMem rfl)
  · intro h
    induction h with
    | here node =>
      rw [walkOrder_eq]
      exact List.mem_cons_self
    | step hStored _ ih =>
      rw [walkOrder_eq]
      refine List.mem_cons_of_mem _ (List.mem_flatMap.mpr ⟨_, Node.perm_successors_stored _ |>.mem_iff.mpr hStored, ?_⟩)
      exact List.mem_map.mpr ⟨_, ih, rfl⟩

theorem Precedes.below {node child : Node} {step : Step} {p q : Path} (hStored : (step, child) ∈ node.stored)
    (h : child.Precedes p q) : node.Precedes (step :: p) (step :: q) := by
  rcases h with ⟨hPrefix, hNe⟩ | ⟨common, parent, kind, a, b, p', q', hParent, hKind, hStep, rfl, rfl⟩
  · exact .inl ⟨List.cons_prefix_cons.mpr ⟨rfl, hPrefix⟩, fun h => hNe (List.cons.inj h).2⟩
  · exact .inr ⟨step :: common, parent, kind, a, b, p', q', .step hStored hParent, hKind, hStep, rfl, rfl⟩

theorem pairwise_enumerateFrom (kind : Kind) (slot : Slot) (start : Nat) (nodes : List Node) :
    (enumerateFrom slot start nodes).Pairwise fun a b => kind.StepBefore a.1 b.1 := by
  induction nodes generalizing start with
  | nil => exact .nil
  | cons first rest ih =>
    refine .cons (fun ⟨step, node⟩ hMem => ?_) (ih (start + 1))
    obtain ⟨hSlot, hIndex, -⟩ := mem_enumerateFrom.mp hMem
    exact .inr ⟨hSlot.symm, hIndex⟩

theorem pairwise_successors {node : Node} {kind : Kind} (h : node.kind? = some kind) :
    node.successors.Pairwise fun a b => kind.StepBefore a.1 b.1 := by
  obtain ⟨hSingle, hMulti, hAcross⟩ := List.pairwise_append.mp kind.pairwise_slots
  have hSlot {slot slot' : Slot} {nodes nodes' : List Node} (hLt : kind.slots.idxOf slot < kind.slots.idxOf slot') :
      ∀ a ∈ enumerateFrom slot 0 nodes, ∀ b ∈ enumerateFrom slot' 0 nodes', kind.StepBefore a.1 b.1 := by
    intro a ha b hb
    left
    rwa [(mem_enumerateFrom.mp ha).1, (mem_enumerateFrom.mp hb).1]
  simp only [successors, h]
  refine List.pairwise_append.mpr ⟨?_, ?_, ?_⟩
  · exact List.pairwise_flatMap.mpr ⟨fun slot _ => pairwise_enumerateFrom kind slot 0 _, hSingle.imp hSlot⟩
  · exact List.pairwise_flatMap.mpr ⟨fun slot _ => pairwise_enumerateFrom kind slot 0 _, hMulti.imp hSlot⟩
  · intro a ha b hb
    obtain ⟨slot, hMem, ha⟩ := List.mem_flatMap.mp ha
    obtain ⟨slot', hMem', hb⟩ := List.mem_flatMap.mp hb
    exact hSlot (hAcross slot hMem slot' hMem') a ha b hb

/-- A walk comes to the positions of a tree in their order. -/
theorem pairwise_walkOrder (root : Node) : root.walkOrder.Pairwise fun a b => root.Precedes a.1 b.1 := by
  induction hSize : root.size using Nat.strongRecOn generalizing root with
  | ind size ih =>
    rw [walkOrder_eq]
    refine .cons ?_ (List.pairwise_flatMap.mpr ⟨?_, ?_⟩)
    · intro a ha
      obtain ⟨edge, -, ha⟩ := List.mem_flatMap.mp ha
      obtain ⟨b, -, rfl⟩ := List.mem_map.mp ha
      exact .inl ⟨List.nil_prefix, by simp⟩
    · intro edge hEdge
      have hStored := root.perm_successors_stored.mem_iff.mp hEdge
      refine List.pairwise_map.mpr ?_
      exact (ih edge.2.size (hSize ▸ size_lt_of_mem_stored hStored) edge.2 rfl).imp fun h => h.below hStored
    · cases hKind : root.kind? with
      | none => simp [successors, hKind]
      | some kind =>
        refine (pairwise_successors hKind).imp fun hBefore a ha b hb => ?_
        obtain ⟨a, -, rfl⟩ := List.mem_map.mp ha
        obtain ⟨b, -, rfl⟩ := List.mem_map.mp hb
        exact .inr ⟨[], root, kind, _, _, a.1, b.1, .here root, hKind, hBefore, rfl, rfl⟩

/-! ## The order is strict -/

/-- Two pairs of paths that part with different steps part at the same place. -/
theorem eq_of_append_eq_append {common common' p q p' q' : Path} {a b a' b' : Step} (hNe : a ≠ b)
    (hNe' : a' ≠ b') (hp : common ++ a :: p = common' ++ a' :: p') (hq : common ++ b :: q = common' ++ b' :: q') :
    common = common' ∧ a = a' ∧ b = b' := by
  rcases List.append_eq_append_iff.mp hp with ⟨more, rfl, hMore⟩ | ⟨more, rfl, hMore⟩ <;>
    cases more <;> simp_all

theorem Precedes.asymm {root : Node} {p q : Path} (h : root.Precedes p q) : ¬root.Precedes q p := by
  rintro h'
  rcases h with ⟨hPrefix, hNe⟩ | ⟨common, parent, kind, a, b, p', q', hParent, hKind, hStep, rfl, rfl⟩
  · rcases h' with ⟨hPrefix', -⟩ | ⟨common, parent, kind, a, b, p', q', -, -, hStep, rfl, rfl⟩
    · exact hNe (hPrefix.eq_of_length_le hPrefix'.length_le)
    · exact hStep.not_prefix common p' q' hPrefix
  · rcases h' with ⟨hPrefix', -⟩ | ⟨common', parent', kind', b', a', q'', p'', hParent', hKind', hStep', hq, hp⟩
    · exact hStep.not_prefix common p' q' hPrefix'
    · obtain ⟨rfl, rfl, rfl⟩ := eq_of_append_eq_append hStep.ne hStep'.ne.symm hp hq
      cases hParent.unique hParent'
      cases hKind.symm.trans hKind'
      exact hStep.asymm hStep'

theorem Precedes.irrefl (root : Node) (path : Path) : ¬root.Precedes path path := fun h => h.asymm h

theorem Precedes.not_prefix {root : Node} {p q : Path} (h : root.Precedes p q) : ¬q <+: p := by
  intro hPrefix
  by_cases hEq : q = p
  · rw [hEq] at h
    exact irrefl root p h
  · exact h.asymm (.inl ⟨hPrefix, hEq⟩)

/-- What a walk comes to before a position are the nodes at the positions that precede it. -/
theorem mem_done {root : Node} {done rest : List (Path × Node)} {entry other : Path × Node}
    (h : root.walkOrder = done ++ entry :: rest) :
    other ∈ done ↔ root.At other.1 other.2 ∧ root.Precedes other.1 entry.1 := by
  have hOrder := root.pairwise_walkOrder
  rw [h, List.pairwise_append] at hOrder
  obtain ⟨-, hAfter, hBefore⟩ := hOrder
  constructor
  · intro hMem
    refine ⟨mem_walkOrder.mp ?_, hBefore _ hMem _ List.mem_cons_self⟩
    rw [h]
    exact List.mem_append_left _ hMem
  · rintro ⟨hAt, hPrecedes⟩
    have hMem := mem_walkOrder.mpr hAt
    rw [h, List.mem_append, List.mem_cons] at hMem
    rcases hMem with hMem | hEq | hMem
    · exact hMem
    · cases hEq
      exact absurd hPrecedes (Precedes.irrefl root _)
    · exact absurd ((List.pairwise_cons.mp hAfter).1 _ hMem) hPrecedes.asymm

end Node
end Listfile
