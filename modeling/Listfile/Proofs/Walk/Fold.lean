import Listfile.Proofs.Walk.Edits
import Listfile.Walk.Total
/-! # Walks as folds

If no handler changes at which positions there are nodes and of which kinds they are, a walk is a left fold over the
positions: at each of them the handler is given the node that stands there by then, with the state as the handler
before it left it, and what it makes of the node is put in its place.
-/
namespace Listfile
set_option autoImplicit false

variable {σ τ : Type}

namespace Walk

def handle (handlers : Handlers σ) (depth : Nat) (path : Path) (node : Node) (state : WalkState σ) :
    Node × WalkState σ :=
  match node.kind? with
  | none => (node, report (.unrecognizedNode node.tag node.span) state)
  | some kind =>
    match handlers kind.schema.handler with
    | none => (node, state)
    | some handler => (handler ⟨kind, depth + path.length⟩ node).run state

theorem bind_ok {α β : Type} {part : WalkM σ α} {next : α → WalkM σ β} {state state' : WalkState σ} {a : α}
    (h : part state = .ok a state') : (part >>= next) state = next a state' := by
  simp [Bind.bind, EStateM.bind, h]

/-- A part of a walk that ends with the tree and the state of a pair. -/
def Gives (part : WalkM σ Node) (state : WalkState σ) (result : Node × WalkState σ) : Prop :=
  part state = .ok result.1 result.2

theorem visitChild_gives {visit : Node → WalkM σ Node} {edited : Step → Node → WalkState σ → Node × WalkState σ}
    (node : Node) (slot : Slot) (state : WalkState σ)
    (hVisit : ∀ edge ∈ Node.enumerateFrom slot 0 (node.child? slot).toList, ∀ state,
      Gives (visit edge.2) state (edited edge.1 edge.2 state)) :
    Gives (visitChild visit node slot) state
      ((Node.enumerateFrom slot 0 (node.child? slot).toList).foldl (Node.editSuccessor edited) (node, state)) := by
  unfold visitChild
  cases hChild : node.child? slot with
  | none => rfl
  | some child =>
    rw [hChild] at hVisit
    rw [Option.toList_some, Node.foldl_editSuccessor_child edited hChild]
    exact bind_ok (hVisit (⟨slot, 0⟩, child) List.mem_cons_self state)

theorem mapM_ok {visit : Node → WalkM σ Node} {edited : Step → Node → WalkState σ → Node × WalkState σ}
    (slot : Slot) (index : Nat) (nodes : List Node) (state : WalkState σ)
    (hVisit : ∀ edge ∈ Node.enumerateFrom slot index nodes, ∀ state,
      Gives (visit edge.2) state (edited edge.1 edge.2 state)) :
    nodes.mapM visit state =
      .ok (Node.editSlot edited slot index nodes state).1 (Node.editSlot edited slot index nodes state).2 := by
  induction nodes generalizing index state with
  | nil => rfl
  | cons node rest ih =>
    obtain ⟨hFirst, hRest⟩ := List.forall_mem_cons.mp hVisit
    rw [List.mapM_cons, bind_ok (hFirst state), bind_ok (ih (index + 1) _ hRest)]
    rfl

theorem visitChildren_gives {visit : Node → WalkM σ Node}
    {edited : Step → Node → WalkState σ → Node × WalkState σ} (node : Node) (slot : Slot) (state : WalkState σ)
    (hVisit : ∀ edge ∈ Node.enumerateFrom slot 0 (node.children slot), ∀ state,
      Gives (visit edge.2) state (edited edge.1 edge.2 state)) :
    Gives (visitChildren visit node slot) state
      ((Node.enumerateFrom slot 0 (node.children slot)).foldl (Node.editSuccessor edited) (node, state)) := by
  rw [Node.foldl_editSuccessor_children]
  exact bind_ok (mapM_ok slot 0 _ state hVisit)

/-- What is made of one slot leaves the others as they are. -/
theorem foldl_editSuccessor_frame {α : Type} (view : Node → Slot → α)
    (hView : ∀ (node : Node) (step : Step) (new : Node) (slot : Slot), slot ≠ step.slot →
      view (node.replaceStep step new) slot = view node slot)
    (edited : Step → Node → τ → Node × τ) (slot : Slot) (edges : List (Step × Node))
    (hEdges : ∀ edge ∈ edges, slot ≠ edge.1.slot) (node : Node) (state : τ) :
    view (edges.foldl (Node.editSuccessor edited) (node, state)).1 slot = view node slot := by
  induction edges generalizing node state with
  | nil => rfl
  | cons edge rest ih =>
    obtain ⟨hFirst, hRest⟩ := List.forall_mem_cons.mp hEdges
    rw [List.foldl_cons]
    exact (ih hRest _ _).trans (hView node edge.1 _ slot hFirst)

theorem flatMap_enumerateFrom_frame (view : Node → Slot → List Node)
    (hView : ∀ (node : Node) (step : Step) (new : Node) (slot : Slot), slot ≠ step.slot →
      view (node.replaceStep step new) slot = view node slot)
    (edited : Step → Node → τ → Node × τ) (slots : List Slot) (edges : List (Step × Node))
    (hEdges : ∀ slot ∈ slots, ∀ edge ∈ edges, slot ≠ edge.1.slot) (node : Node) (state : τ) :
    (slots.flatMap fun slot =>
        Node.enumerateFrom slot 0 (view (edges.foldl (Node.editSuccessor edited) (node, state)).1 slot)) =
      slots.flatMap fun slot => Node.enumerateFrom slot 0 (view node slot) := by
  refine List.flatMap_congr fun slot hSlot => ?_
  rw [foldl_editSuccessor_frame view hView edited slot edges (hEdges slot hSlot) node state]

theorem foldlM_gives {visit : Node → WalkM σ Node} {edited : Step → Node → WalkState σ → Node × WalkState σ}
    (view : Node → Slot → List Node) {part : Node → Slot → WalkM σ Node}
    (hView : ∀ (node : Node) (step : Step) (new : Node) (slot : Slot), slot ≠ step.slot →
      view (node.replaceStep step new) slot = view node slot)
    (hPart : ∀ (node : Node) (slot : Slot) (state : WalkState σ),
      (∀ edge ∈ Node.enumerateFrom slot 0 (view node slot), ∀ state,
        Gives (visit edge.2) state (edited edge.1 edge.2 state)) →
      Gives (part node slot) state
        ((Node.enumerateFrom slot 0 (view node slot)).foldl (Node.editSuccessor edited) (node, state)))
    (slots : List Slot) (hNodup : slots.Nodup) (node : Node) (state : WalkState σ)
    (hVisit : ∀ edge ∈ slots.flatMap fun slot => Node.enumerateFrom slot 0 (view node slot), ∀ state,
      Gives (visit edge.2) state (edited edge.1 edge.2 state)) :
    Gives (slots.foldlM part node) state
      ((slots.flatMap fun slot => Node.enumerateFrom slot 0 (view node slot)).foldl
        (Node.editSuccessor edited) (node, state)) := by
  induction slots generalizing node state with
  | nil => rfl
  | cons slot rest ih =>
    obtain ⟨hNotMem, hNodup⟩ := List.nodup_cons.mp hNodup
    simp only [List.flatMap_cons, List.forall_mem_append] at hVisit
    have hFirst := hPart node slot state hVisit.1
    let after := (Node.enumerateFrom slot 0 (view node slot)).foldl (Node.editSuccessor edited) (node, state)
    -- The slots still to be visited hold what they held before.
    have hRest : (rest.flatMap fun slot => Node.enumerateFrom slot 0 (view after.1 slot)) =
        rest.flatMap fun slot => Node.enumerateFrom slot 0 (view node slot) := by
      refine flatMap_enumerateFrom_frame view hView edited rest _ (fun other hOther edge hEdge hEq => hNotMem ?_) node state
      rwa [← (Node.mem_enumerateFrom.mp hEdge).1, ← hEq]
    have hLast := ih hNodup after.1 after.2 (by rw [hRest]; exact hVisit.2)
    rw [hRest] at hLast
    rw [List.flatMap_cons, List.foldl_append, List.foldlM_cons]
    exact (bind_ok hFirst).trans hLast

theorem visitSuccessors_gives {visit : Node → WalkM σ Node}
    {edited : Step → Node → WalkState σ → Node × WalkState σ} {kind : Kind} (node : Node)
    (hKind : node.kind? = some kind) (state : WalkState σ)
    (hVisit : ∀ edge ∈ node.successors, ∀ state, Gives (visit edge.2) state (edited edge.1 edge.2 state)) :
    Gives (do
        let node ← kind.schema.single.foldlM (visitChild visit) node
        kind.schema.multi.foldlM (visitChildren visit) node) state
      (node.successors.foldl (Node.editSuccessor edited) (node, state)) := by
  obtain ⟨hSingle, hMulti, hAcross⟩ := List.nodup_append.mp kind.nodup_slots
  simp only [Node.successors, hKind, List.forall_mem_append] at hVisit
  have hFirst := foldlM_gives (fun node slot => (node.child? slot).toList)
    (fun node step new slot h => by rw [Node.child?_replaceStep_of_ne new h])
    (fun node slot state => visitChild_gives node slot state) kind.schema.single hSingle node state hVisit.1
  let after := (kind.schema.single.flatMap fun slot => Node.enumerateFrom slot 0 (node.child? slot).toList).foldl
    (Node.editSuccessor edited) (node, state)
  have hRest : (kind.schema.multi.flatMap fun slot => Node.enumerateFrom slot 0 (after.1.children slot)) =
      kind.schema.multi.flatMap fun slot => Node.enumerateFrom slot 0 (node.children slot) := by
    refine flatMap_enumerateFrom_frame (fun node slot => node.children slot)
      (fun node step new slot h => Node.children_replaceStep_of_ne new h) edited kind.schema.multi _
      (fun other hOther edge hEdge hEq => ?_) node state
    obtain ⟨slot, hSlot, hEdge⟩ := List.mem_flatMap.mp hEdge
    exact hAcross slot hSlot other hOther ((Node.mem_enumerateFrom.mp hEdge).1.symm.trans hEq.symm)
  have hLast := foldlM_gives (fun node slot => node.children slot)
    (fun node step new slot h => Node.children_replaceStep_of_ne new h)
    (fun node slot state => visitChildren_gives node slot state) kind.schema.multi hMulti after.1 after.2
    (by rw [hRest]; exact hVisit.2)
  rw [hRest] at hLast
  simp only [Node.successors, hKind, List.foldl_append]
  exact (bind_ok hFirst).trans hLast

end Walk

/-- No handler changes what kind of node it is given or the children that it has. -/
def Handlers.ShapeKeeping (handlers : Handlers σ) : Prop :=
  ∀ key handler, handlers key = some handler →
    ∀ visit node state, ((handler visit node).run state).1.SameShape node

/-- No handler changes at which positions its node has nodes below it, or of which kinds these are. -/
def Handlers.SkeletonKeeping (handlers : Handlers σ) : Prop :=
  ∀ key handler, handlers key = some handler →
    ∀ visit node state, ((handler visit node).run state).1.SameSkeleton node

namespace Handlers

variable {handlers : Handlers σ}

theorem SkeletonKeeping.nonGrowing (h : handlers.SkeletonKeeping) : handlers.NonGrowing := by
  intro key handler hHandler visit node state
  exact Nat.le_of_eq (h key handler hHandler visit node state).size_eq

theorem ShapeKeeping.register (h : handlers.ShapeKeeping) (key : HandlerKey) {handler : Handler σ}
    (hNew : ∀ visit node state, ((handler visit node).run state).1.SameShape node) :
    (handlers.register key handler).ShapeKeeping := forall_register h key hNew

theorem ShapeKeeping.skeletonKeeping (h : handlers.ShapeKeeping) : handlers.SkeletonKeeping := by
  intro key handler hHandler visit node state
  exact (h key handler hHandler visit node state).sameSkeleton

end Handlers

namespace Walk

theorem handle_sameShape {handlers : Handlers σ} (h : handlers.ShapeKeeping) (depth : Nat) (path : Path) (node : Node)
    (state : WalkState σ) : (handle handlers depth path node state).1.SameShape node := by
  unfold handle
  split
  · exact .refl node
  · split
    · exact .refl node
    · exact h _ _ ‹_› _ _ _

theorem handle_sameSkeleton {handlers : Handlers σ} (h : handlers.SkeletonKeeping) (depth : Nat) (path : Path)
    (node : Node) (state : WalkState σ) : (handle handlers depth path node state).1.SameSkeleton node := by
  unfold handle
  split
  · exact .refl node
  · split
    · exact .refl node
    · exact h _ _ ‹_› _ _ _

theorem handle_below (handlers : Handlers σ) (depth : Nat) (step : Step) :
    (fun path => handle handlers depth (step :: path)) = handle handlers (depth + 1) := by
  funext path node state
  simp only [handle, List.length_cons, Nat.add_assoc, Nat.add_comm 1]

/-- A walk is a left fold over the positions of the tree at the start. -/
theorem visit_gives {handlers : Handlers σ} (h : handlers.SkeletonKeeping) (limit depth : Nat)
    (node : Node) (hSize : node.size ≤ limit) (state : WalkState σ) :
    Gives (visit handlers limit depth node) state (node.editPositions (handle handlers depth) state) := by
  -- The children that the handler leaves are as small as those that its node had.
  induction limit generalizing depth node state with
  | zero =>
    have hPos := node.size_pos
    omega
  | succ limit ih =>
    have hSkeleton := handle_sameSkeleton h depth [] node state
    rw [Node.editPositions_eq hSkeleton]
    simp only [handle_below]
    unfold visit
    cases hKind : node.kind? with
    | none =>
      have hNone : (handle handlers depth [] node state).1.successors = [] := by
        simp [Node.successors, hSkeleton.kind?, hKind]
      rw [hNone]
      simp [Gives, handle, hKind]
      rfl
    | some kind =>
      have hDispatch : Gives (dispatch handlers ⟨kind, depth⟩ node) state (handle handlers depth [] node state) := by
        simp only [Gives, dispatch, handle, hKind]
        cases handlers kind.schema.handler <;> rfl
      refine (bind_ok hDispatch).trans (visitSuccessors_gives _ (hSkeleton.kind?.trans hKind) _ ?_)
      intro edge hEdge state
      apply ih
      have hLt := Node.size_lt_of_mem_successors hEdge
      have hSame := hSkeleton.size_eq
      omega

theorem run_eq_editPositions {handlers : Handlers σ} (h : handlers.SkeletonKeeping) (root : Node)
    (state : WalkState σ) : run handlers h.nonGrowing root state = root.editPositions (handle handlers 0) state := by
  have hVisit := visit_gives h root.size 0 root (Nat.le_refl _) state
  unfold run
  split
  · rename_i hRun
    cases hRun.symm.trans hVisit
    rfl
  · rename_i hRun
    cases hRun.symm.trans hVisit

theorem run_eq {handlers : Handlers σ} (h : handlers.ShapeKeeping) (hGrow : handlers.NonGrowing) (root : Node)
    (state : WalkState σ) : run handlers hGrow root state = root.editAll (handle handlers 0) state := by
  rw [Node.editAll_eq_editPositions (handle_sameShape h 0)]
  exact run_eq_editPositions h.skeletonKeeping root state

end Walk

end Listfile
