import Listfile.Proofs.Walk.Dispatch
import Listfile.Walk.Collect
/-! # What a walk collects

A walk that changes nothing and notes the nodes of the chosen kinds comes to a selection from what it reaches, in the
same order.
-/
namespace Listfile.Walk
set_option autoImplicit false

variable {α : Type} (describe : Visit → Node → α) (keys : List HandlerKey)

/-- What is noted at a position. -/
def noted? (entry : Path × Node) : Option α :=
  match entry.2.kind? with
  | none => none
  | some kind => if kind.schema.handler ∈ keys then some (describe ⟨kind, entry.1.length⟩ entry.2) else none

theorem noting_eq (key : HandlerKey) :
    noting describe keys key = if key ∈ keys then some (note describe) else none := by
  induction keys with
  | nil => rfl
  | cons first rest ih =>
    rw [noting, Handlers.register]
    by_cases h : key = first
    · rw [if_pos h, if_pos (List.mem_cons.mpr (.inl h))]
    · rw [if_neg h, ih]
      simp only [List.mem_cons, h, false_or]

theorem log_handle (path : Path) (node : Node) (state : WalkState (Array α)) :
    (handle (noting describe keys) 0 path node state).2.log.toList =
      state.log.toList ++ (noted? describe keys (path, node)).toList := by
  unfold handle noted?
  cases node.kind? with
  | none => exact (List.append_nil _).symm
  | some kind =>
    simp only [noting_eq, Nat.zero_add]
    by_cases h : kind.schema.handler ∈ keys
    · simp only [if_pos h]
      exact Array.toList_push
    · simp only [if_neg h, Option.toList_none, List.append_nil]

theorem log_foldl_handle (entries : List (Path × Node)) (state : WalkState (Array α)) :
    (entries.foldl (fun state entry => (handle (noting describe keys) 0 entry.1 entry.2 state).2)
      state).log.toList = state.log.toList ++ entries.filterMap (noted? describe keys) := by
  induction entries generalizing state with
  | nil => exact (List.append_nil _).symm
  | cons entry rest ih =>
    rw [List.foldl_cons, ih, log_handle, List.append_assoc]
    cases h : noted? describe keys (entry.1, entry.2) with
    | none => rw [List.filterMap_cons_none h]; rfl
    | some line => rw [List.filterMap_cons_some h]; rfl

theorem collect_eq (root : Node) : collect describe keys root = root.walkOrder.filterMap (noted? describe keys) := by
  have hKeep := nodeKeeping_noting describe keys
  rw [collect, run_eq hKeep.shapeKeeping, Node.editAll_of_keeping (hKeep.handle_fst 0)]
  exact log_foldl_handle describe keys root.walkOrder _

end Listfile.Walk
