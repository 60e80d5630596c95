import Listfile.Walk
/-! # Walks that cannot go too deep

If no handler makes its node grow, a walk with the size of the tree as its limit is never broken off, as the
children of a node are smaller than the node was before its handler. For such handlers `Walk.run` always has
a result.
-/
namespace Listfile.Walk
set_option autoImplicit false

variable {σ α β : Type}

/-- The part of a walk ends by itself, whatever the state, with a result that has the property. -/
def Ends (part : WalkM σ α) (property : α → Prop) : Prop :=
  ∀ state, ∃ result state', part state = .ok result state' ∧ property result

theorem Ends.pure {property : α → Prop} {a : α} (h : property a) : Ends (σ := σ) (Pure.pure a) property :=
  fun state => ⟨a, state, rfl, h⟩

theorem Ends.bind {part : WalkM σ α} {next : α → WalkM σ β} {first : α → Prop} {second : β → Prop}
    (h : Ends part first) (hNext : ∀ a, first a → Ends (next a) second) : Ends (part >>= next) second := by
  intro state
  obtain ⟨a, state', hPart, ha⟩ := h state
  obtain ⟨b, state'', hRest, hb⟩ := hNext a ha state'
  exact ⟨b, state'', by simp [Bind.bind, EStateM.bind, hPart, hRest], hb⟩

theorem Ends.foldlM (property : β → Prop) {step : β → α → WalkM σ β} (items : List α)
    (hStep : ∀ b a, property b → Ends (step b a) property) {start : β} (h : property start) :
    Ends (items.foldlM step start) property := by
  induction items generalizing start with
  | nil => exact .pure h
  | cons a rest ih => exact .bind (hStep start a h) fun b hb => ih hb

end Listfile.Walk

namespace Listfile
set_option autoImplicit false

variable {σ : Type}

/-- No handler leaves a node larger than it was. -/
def Handlers.NonGrowing (handlers : Handlers σ) : Prop :=
  ∀ key handler, handlers key = some handler →
    ∀ visit node state, ((handler visit node).run state).1.size ≤ node.size

theorem Handlers.nonGrowing_none : (none : Handlers σ).NonGrowing := fun _ _ h => by cases h

/-- What holds of all handlers of a table still does after one more is registered of which it holds. -/
theorem Handlers.forall_register {handlers : Handlers σ} {property : Handler σ → Prop}
    (h : ∀ key handler, handlers key = some handler → property handler) (key : HandlerKey) {handler : Handler σ}
    (hNew : property handler) : ∀ other found, handlers.register key handler other = some found → property found := by
  intro other found hFound
  unfold register at hFound
  split at hFound
  · cases hFound
    exact hNew
  · exact h other found hFound

theorem Handlers.NonGrowing.register {handlers : Handlers σ} (h : handlers.NonGrowing) (key : HandlerKey)
    {handler : Handler σ} (hNew : ∀ visit node state, ((handler visit node).run state).1.size ≤ node.size) :
    (handlers.register key handler).NonGrowing := forall_register h key hNew

namespace Walk

theorem ends_dispatch {handlers : Handlers σ} (h : handlers.NonGrowing) (visit : Visit) (node : Node) :
    Ends (dispatch handlers visit node) (·.size ≤ node.size) := by
  unfold dispatch
  split
  · exact .pure (Nat.le_refl _)
  · rename_i handler hHandler
    intro state
    exact ⟨_, _, rfl, h _ _ hHandler visit node state⟩

theorem ends_visitChild {visit : Node → WalkM σ Node} {bound : Nat}
    (hVisit : ∀ child, child.size < bound → Ends (visit child) (·.size ≤ child.size)) (node : Node) (slot : Slot)
    (h : node.size ≤ bound) : Ends (visitChild visit node slot) (·.size ≤ bound) := by
  unfold visitChild
  split
  · exact .pure h
  · rename_i child hChild
    have hLt := Node.size_lt_of_child? hChild
    refine .bind (hVisit child (by omega)) fun child' hSize => .pure ?_
    have := Node.size_setChild hChild child'
    omega

theorem ends_mapM {visit : Node → WalkM σ Node} (nodes : List Node)
    (hVisit : ∀ child ∈ nodes, Ends (visit child) (·.size ≤ child.size)) :
    Ends (nodes.mapM visit) (Node.sizeAll · ≤ Node.sizeAll nodes) := by
  induction nodes with
  | nil => exact .pure (Nat.le_refl _)
  | cons first rest ih =>
    rw [List.mapM_cons]
    refine .bind (hVisit first List.mem_cons_self) fun first' hFirst => ?_
    refine .bind (ih fun child hChild => hVisit child (List.mem_cons_of_mem _ hChild)) fun rest' hRest => ?_
    refine .pure ?_
    simp only [Node.sizeAll]
    omega

theorem ends_visitChildren {visit : Node → WalkM σ Node} {bound : Nat}
    (hVisit : ∀ child, child.size < bound → Ends (visit child) (·.size ≤ child.size)) (node : Node) (slot : Slot)
    (h : node.size ≤ bound) : Ends (visitChildren visit node slot) (·.size ≤ bound) := by
  have hLt := Node.sizeAll_children_lt slot node
  refine .bind (ends_mapM _ fun child hChild => ?_) fun children hChildren =>
    .pure (Nat.le_trans (Node.size_setChildren_le hChildren) h)
  have := Node.size_le_sizeAll hChild
  exact hVisit child (by omega)

/-- A walk that may go as deep as the tree is large ends, and leaves the tree no larger. -/
theorem ends_visit {handlers : Handlers σ} (h : handlers.NonGrowing) (limit depth : Nat) (node : Node)
    (hSize : node.size ≤ limit) : Ends (visit handlers limit depth node) (·.size ≤ node.size) := by
  induction limit generalizing depth node with
  | zero => exact absurd hSize (by have := node.size_pos; omega)
  | succ limit ih =>
    have hVisit : ∀ child : Node, child.size < node.size →
        Ends (visit handlers limit (depth + 1) child) (·.size ≤ child.size) :=
      fun child hChild => ih (depth + 1) child (by omega)
    unfold visit
    split
    · exact fun state => ⟨_, _, rfl, Nat.le_refl _⟩
    · refine .bind (ends_dispatch h _ node) fun first hFirst => ?_
      refine .bind (Ends.foldlM (fun n : Node => n.size ≤ node.size) _ (fun current slot hCurrent => ?_) hFirst)
        fun second hSecond => Ends.foldlM (fun n : Node => n.size ≤ node.size) _ (fun current slot hCurrent => ?_) hSecond
      · exact ends_visitChild hVisit current slot hCurrent
      · exact ends_visitChildren hVisit current slot hCurrent

/-- Walks a tree with handlers that do not make nodes grow. -/
def run (handlers : Handlers σ) (h : handlers.NonGrowing) (root : Node) (state : WalkState σ) :
    Node × WalkState σ :=
  match hRun : visit handlers root.size 0 root state with
  | .ok tree state => (tree, state)
  | .error _ _ => absurd hRun (by
      obtain ⟨_, _, hOk, _⟩ := ends_visit h root.size 0 root (Nat.le_refl _) state
      simp [hOk])

end Walk

end Listfile
