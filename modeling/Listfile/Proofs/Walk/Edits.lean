import Mathlib.Data.List.Basic
import Listfile.Proofs.Walk.Skeleton
/-! # Edits of all positions of a tree

An edit is carried out at one position after the other, in the order of a walk, and a state is handed on. Where edits
keep the skeleton of a node, each is given the node that stands at its position by then, and this comes to the same as
to edit the root and then what is below it. Where they keep what a node stores, it is the node of the start.
-/
namespace Listfile.Node
set_option autoImplicit false

variable {τ : Type}

/-- Whether two nodes are of one kind and have the same children in every slot. -/
structure SameShape (a b : Node) : Prop where
  kind? : a.kind? = b.kind?
  child? : ∀ slot, a.child? slot = b.child? slot
  children : ∀ slot, a.children slot = b.children slot

theorem SameShape.refl (node : Node) : node.SameShape node := ⟨rfl, fun _ => rfl, fun _ => rfl⟩

theorem SameShape.successors {a b : Node} (h : a.SameShape b) : a.successors = b.successors := by
  simp only [Node.successors, h.kind?, h.child?, h.children]

theorem SameShape.get? {a b : Node} (h : a.SameShape b) (step : Step) : a.get? step = b.get? step := by
  simp only [Node.get?, inSlot, h.child?, h.children]

theorem SameShape.sameSkeleton {a b : Node} (h : a.SameShape b) : a.SameSkeleton b := by
  intro path
  cases path with
  | nil => exact congrArg some h.kind?
  | cons step path => rw [nodeAt?, nodeAt?, h.get?]

/-- Carries out an edit at one position of a tree, given the node that was there at the start. -/
def editAt (edit : Path → Node → τ → Node × τ) (sofar : Node × τ) (entry : Path × Node) : Node × τ :=
  let edited := edit entry.1 entry.2 sofar.2
  (sofar.1.replaceAt entry.1 edited.1, edited.2)

def editAll (edit : Path → Node → τ → Node × τ) (root : Node) (state : τ) : Node × τ :=
  root.walkOrder.foldl (editAt edit) (root, state)

/-- Carries out an edit at a position, on the node that stands there by then. -/
def editCurrent (edit : Path → Node → τ → Node × τ) (sofar : Node × τ) (path : Path) : Node × τ :=
  match sofar.1.nodeAt? path with
  | none => sofar
  | some node =>
    let edited := edit path node sofar.2
    (sofar.1.replaceAt path edited.1, edited.2)

def editPositions (edit : Path → Node → τ → Node × τ) (root : Node) (state : τ) : Node × τ :=
  root.positions.foldl (editCurrent edit) (root, state)

def editSuccessor (edited : Step → Node → τ → Node × τ) (sofar : Node × τ) (edge : Step × Node) : Node × τ :=
  let after := edited edge.1 edge.2 sofar.2
  (sofar.1.replaceStep edge.1 after.1, after.2)

theorem editCurrent_below {edit : Path → Node → τ → Node × τ} {node child : Node} {step : Step}
    (h : node.get? step = some child) (path : Path) (state : τ) :
    editCurrent edit (node, state) (step :: path) =
      let after := editCurrent (fun path => edit (step :: path)) (child, state) path
      (node.replaceStep step after.1, after.2) := by
  simp only [editCurrent, nodeAt?_cons h]
  cases child.nodeAt? path with
  | none => simp only [replaceStep_get? h]
  | some target => simp only [replaceAt, h]

theorem foldl_editCurrent_below {edit : Path → Node → τ → Node × τ} {node child : Node} {step : Step}
    (h : node.get? step = some child) (paths : List Path) (state : τ) :
    (paths.map (step :: ·)).foldl (editCurrent edit) (node, state) =
      let after := paths.foldl (editCurrent fun path => edit (step :: path)) (child, state)
      (node.replaceStep step after.1, after.2) := by
  induction paths generalizing node child state with
  | nil => simp [replaceStep_get? h]
  | cons path rest ih =>
    simp only [List.map_cons, List.foldl_cons]
    rw [editCurrent_below h, ih (get?_replaceStep_self _ h)]
    simp only [replaceStep_replaceStep _ h]

theorem foldl_editCurrent_successors (edit : Path → Node → τ → Node × τ) (edges : List (Step × Node)) (node : Node)
    (state : τ) (hGet : ∀ edge ∈ edges, node.get? edge.1 = some edge.2) (hNe : edges.Pairwise (·.1 ≠ ·.1)) :
    (edges.flatMap fun edge => edge.2.positions.map (edge.1 :: ·)).foldl (editCurrent edit) (node, state) =
      edges.foldl (editSuccessor fun step child => child.editPositions fun path => edit (step :: path))
        (node, state) := by
  induction edges generalizing node state with
  | nil => rfl
  | cons edge rest ih =>
    obtain ⟨hFirst, hRest⟩ := List.forall_mem_cons.mp hGet
    obtain ⟨hNeFirst, hNeRest⟩ := List.pairwise_cons.mp hNe
    rw [List.flatMap_cons, List.foldl_append, foldl_editCurrent_below hFirst]
    apply ih _ _ _ hNeRest
    intro other hOther
    rw [get?_replaceStep_of_ne _ hFirst (hNeFirst other hOther).symm]
    exact hRest other hOther

theorem pairwise_ne_successors (node : Node) : node.successors.Pairwise (·.1 ≠ ·.1) := by
  cases hKind : node.kind? with
  | none => simp [successors, hKind]
  | some kind => exact (pairwise_successors hKind).imp fun hBefore => hBefore.ne

/-- An edit of all positions edits the root, and then what is below it as the root leaves it. -/
theorem editPositions_eq {edit : Path → Node → τ → Node × τ} {node : Node} {state : τ}
    (h : (edit [] node state).1.SameSkeleton node) :
    node.editPositions edit state = (edit [] node state).1.successors.foldl
      (editSuccessor fun step child => child.editPositions fun path => edit (step :: path)) (edit [] node state) := by
  have hFirst : editCurrent edit (node, state) [] = edit [] node state := rfl
  rw [editPositions, ← h.positions_eq, positions_eq, List.foldl_cons, hFirst]
  apply foldl_editCurrent_successors _ _ _ _ _ (pairwise_ne_successors _)
  intro edge hEdge
  exact mem_stored.mp ((perm_successors_stored _).mem_iff.mp hEdge)

theorem foldl_sameSkeleton {edit : Path → Node → τ → Node × τ}
    (h : ∀ path node state, (edit path node state).1.SameSkeleton node) (paths : List Path) (tree : Node) (state : τ) :
    (paths.foldl (editCurrent edit) (tree, state)).1.SameSkeleton tree := by
  induction paths generalizing tree state with
  | nil => exact .refl tree
  | cons path rest ih =>
    have hFirst : (editCurrent edit (tree, state) path).1.SameSkeleton tree := by
      unfold editCurrent
      split
      · exact .refl tree
      · exact sameSkeleton_replaceAt (nodeAt?_eq_some.mp ‹_›) (h _ _ _)
    exact (ih _ _).trans hFirst

/-! ## Edits that keep what a node stores -/

/-- Replacing a node by one that stores the same changes nothing at positions that are not above it. -/
theorem nodeAt?_replaceAt {root node new : Node} {path other : Path} (hAt : root.At path node) (h : new.SameShape node)
    (hOther : ¬other <+: path) : (root.replaceAt path new).nodeAt? other = root.nodeAt? other := by
  induction hAt generalizing other with
  | here node =>
    cases other with
    | nil => exact absurd List.nil_prefix hOther
    | cons step other => rw [replaceAt, nodeAt?, nodeAt?, h.get?]
  | @step node child target step path hStored hAt ih =>
    have hGet := mem_stored.mp hStored
    rw [replaceAt, hGet]
    cases other with
    | nil => exact absurd List.nil_prefix hOther
    | cons step' other =>
      by_cases hStep : step' = step
      · subst hStep
        rw [nodeAt?_cons (get?_replaceStep_self _ hGet), nodeAt?_cons hGet]
        apply ih h
        intro hPrefix
        exact hOther (List.cons_prefix_cons.mpr ⟨rfl, hPrefix⟩)
      · simp only [nodeAt?, get?_replaceStep_of_ne _ hGet hStep]

section shape

variable {edit : Path → Node → τ → Node × τ} (h : ∀ path node state, (edit path node state).1.SameShape node)

include h

theorem foldl_editAt_eq {entries : List (Path × Node)} (hOrder : entries.Pairwise fun a b => ¬b.1 <+: a.1)
    (tree : Node) (hTree : ∀ entry ∈ entries, tree.nodeAt? entry.1 = some entry.2) (state : τ) :
    entries.foldl (editAt edit) (tree, state) = (entries.map Prod.fst).foldl (editCurrent edit) (tree, state) := by
  induction entries generalizing tree state with
  | nil => rfl
  | cons entry rest ih =>
    obtain ⟨hFirst, hRest⟩ := List.forall_mem_cons.mp hTree
    obtain ⟨hBefore, hOrder⟩ := List.pairwise_cons.mp hOrder
    have hCurrent : editCurrent edit (tree, state) entry.1 = editAt edit (tree, state) entry := by
      simp only [editCurrent, hFirst, editAt]
    rw [List.map_cons, List.foldl_cons, List.foldl_cons, hCurrent]
    apply ih hOrder
    intro other hOther
    have hSame := nodeAt?_replaceAt (nodeAt?_eq_some.mp hFirst) (h entry.1 entry.2 state) (hBefore other hOther)
    exact hSame.trans (hRest other hOther)

theorem editAll_eq_editPositions (root : Node) (state : τ) : root.editAll edit state = root.editPositions edit state := by
  apply foldl_editAt_eq h
  · exact root.pairwise_walkOrder.imp Precedes.not_prefix
  · intro entry hEntry
    exact nodeAt?_eq_some.mpr (mem_walkOrder.mp hEntry)

/-- An edit of a whole tree first edits the root and then each of its successors. -/
theorem editAll_eq (node : Node) (state : τ) :
    node.editAll edit state = node.successors.foldl
      (editSuccessor fun step child => child.editAll fun path => edit (step :: path)) (edit [] node state) := by
  have hBelow : (fun (step : Step) (child : Node) => child.editPositions fun path => edit (step :: path)) =
      fun step child => child.editAll fun path => edit (step :: path) := by
    funext step child state
    exact (editAll_eq_editPositions (fun path => h (step :: path)) child state).symm
  rw [editAll_eq_editPositions h, editPositions_eq (h [] node state).sameSkeleton, (h [] node state).successors, hBelow]

end shape

/-! ## What an edit is given -/

/-- The state that an edit of a whole tree comes to a position with. -/
def stateBefore (edit : Path → Node → τ → Node × τ) (root : Node) (state : τ) (path : Path) : τ :=
  (root.walkOrder.takeWhile (·.1 ≠ path)).foldl (fun state entry => (edit entry.1 entry.2 state).2) state

/-- The edit at each position, with the state that it is given fixed. -/
def fixed (edit : Path → Node → τ → Node × τ) (state : Path → τ) (path : Path) (node : Node) (_ : Unit) :
    Node × Unit :=
  ((edit path node (state path)).1, ())

theorem foldl_editAt_fixed (edit : Path → Node → τ → Node × τ) (given : Path → τ) (todo : List (Path × Node))
    (root : Node) (state : τ) (hState : ∀ done entry rest, todo = done ++ entry :: rest →
      given entry.1 = done.foldl (fun state entry => (edit entry.1 entry.2 state).2) state) :
    (todo.foldl (editAt edit) (root, state)).1 = (todo.foldl (editAt (fixed edit given)) (root, ())).1 := by
  induction todo generalizing root state with
  | nil => rfl
  | cons entry rest ih =>
    have hFirst : given entry.1 = state := hState [] entry rest rfl
    have hStep : (editAt (fixed edit given) (root, ()) entry).1 = (editAt edit (root, state) entry).1 := by
      simp only [editAt, fixed, hFirst]
    rw [List.foldl_cons, List.foldl_cons, ← Prod.eta (editAt (fixed edit given) _ _), hStep]
    refine ih _ _ fun done other rest' hRest => ?_
    rw [hState (entry :: done) other rest' (by rw [hRest, List.cons_append]), List.foldl_cons]

theorem ne_of_walkOrder {root : Node} {done rest : List (Path × Node)} {entry : Path × Node}
    (h : root.walkOrder = done ++ entry :: rest) : ∀ other ∈ done, other.1 ≠ entry.1 := by
  intro other hOther hEq
  have hBefore := ((mem_done h).mp hOther).2
  rw [hEq] at hBefore
  exact Precedes.irrefl root entry.1 hBefore

theorem takeWhile_ne {done rest : List (Path × Node)} {entry : Path × Node}
    (h : ∀ other ∈ done, other.1 ≠ entry.1) : (done ++ entry :: rest).takeWhile (·.1 ≠ entry.1) = done := by
  have hDone : ∀ other ∈ done, decide (other.1 ≠ entry.1) = true := fun other hOther =>
    decide_eq_true (h other hOther)
  rw [List.takeWhile_append_of_pos hDone, List.takeWhile_cons_of_neg (by simp), List.append_nil]

/-- The tree that comes out is the one in which each position is edited with the state before it. -/
theorem editAll_fst (edit : Path → Node → τ → Node × τ) (root : Node) (state : τ) :
    (root.editAll edit state).1 = (root.editAll (fixed edit (root.stateBefore edit state)) ()).1 := by
  refine foldl_editAt_fixed edit _ root.walkOrder root state fun done entry rest h => ?_
  rw [stateBefore, h, takeWhile_ne (ne_of_walkOrder h)]

theorem editAll_snd (edit : Path → Node → τ → Node × τ) (root : Node) (state : τ) :
    (root.editAll edit state).2 =
      root.walkOrder.foldl (fun state entry => (edit entry.1 entry.2 state).2) state := by
  have hAll (entries : List (Path × Node)) (tree : Node) (state : τ) :
      (entries.foldl (editAt edit) (tree, state)).2 =
        entries.foldl (fun state entry => (edit entry.1 entry.2 state).2) state := by
    induction entries generalizing tree state with
    | nil => rfl
    | cons entry rest ih => exact ih _ _
  exact hAll _ root state

/-- It matters only what an edit does with what stands in the tree. -/
theorem editAll_congr {edit edit' : Path → Node → τ → Node × τ} {root : Node}
    (h : ∀ path node, root.At path node → ∀ state, edit path node state = edit' path node state) (state : τ) :
    root.editAll edit state = root.editAll edit' state := by
  refine List.foldl_ext _ _ _ fun sofar entry hEntry => ?_
  simp only [editAt, h entry.1 entry.2 (mem_walkOrder.mp hEntry)]

/-! ## One slot -/

/-- Edits the nodes in a slot from one place on, one after the other. -/
def editSlot (edited : Step → Node → τ → Node × τ) (slot : Slot) : Nat → List Node → τ → List Node × τ
  | _, [], state => ([], state)
  | index, node :: rest, state =>
    let first := edited ⟨slot, index⟩ node state
    let others := editSlot edited slot (index + 1) rest first.2
    (first.1 :: others.1, others.2)

theorem foldl_editSuccessor_child (edited : Step → Node → τ → Node × τ) {node child : Node} {slot : Slot}
    (h : node.child? slot = some child) (state : τ) :
    (enumerateFrom slot 0 [child]).foldl (editSuccessor edited) (node, state) =
      (node.setChild slot (edited ⟨slot, 0⟩ child state).1, (edited ⟨slot, 0⟩ child state).2) := by
  simp only [enumerateFrom, List.foldl_cons, List.foldl_nil, editSuccessor, replaceStep_of_child? h]

theorem foldl_editSuccessor_children_from (edited : Step → Node → τ → Node × τ) {slot : Slot} (todo done : List Node)
    (node : Node) (h : node.children slot = done ++ todo) (state : τ) :
    (enumerateFrom slot done.length todo).foldl (editSuccessor edited) (node, state) =
      (node.setChildren slot (done ++ (editSlot edited slot done.length todo state).1),
        (editSlot edited slot done.length todo state).2) := by
  induction todo generalizing done node state with
  | nil => simp [enumerateFrom, editSlot, ← h]
  | cons child rest ih =>
    have hNe : node.children slot ≠ [] := by simp [h]
    have hReplace (new : Node) : node.replaceStep ⟨slot, done.length⟩ new =
        node.setChildren slot (done ++ new :: rest) := by
      rw [replaceStep_of_children hNe, h, List.set_append_right _ _ (Nat.le_refl _), Nat.sub_self, List.set_cons_zero]
    -- What is done has grown by one node, and the places of the others are as before.
    have hRest (new : Node) (state : τ) := ih (done ++ [new]) (node.setChildren slot (done ++ new :: rest))
      (by rw [children_setChildren _ hNe]; simp) state
    simp only [List.length_append, List.length_singleton, setChildren_setChildren, List.append_assoc,
      List.singleton_append] at hRest
    simp only [enumerateFrom, List.foldl_cons, editSuccessor, hReplace, hRest, editSlot]

theorem foldl_editSuccessor_children (edited : Step → Node → τ → Node × τ) (node : Node) (slot : Slot) (state : τ) :
    (enumerateFrom slot 0 (node.children slot)).foldl (editSuccessor edited) (node, state) =
      (node.setChildren slot (editSlot edited slot 0 (node.children slot) state).1,
        (editSlot edited slot 0 (node.children slot) state).2) :=
  foldl_editSuccessor_children_from edited (node.children slot) [] node rfl state

end Listfile.Node
