import Listfile.Walk.Total
/-! # Lists of what a walk visits

Walks that change nothing and note something about each node of the chosen kinds, in the order of the visits.
-/
namespace Listfile.Walk
set_option autoImplicit false

variable {α : Type}

def note (describe : Visit → Node → α) : Handler (Array α) := fun visit node => do
  modify fun state => { state with log := state.log.push (describe visit node) }
  return node

def noting (describe : Visit → Node → α) : List HandlerKey → Handlers (Array α)
  | [] => .none
  | key :: keys => (noting describe keys).register key (note describe)

theorem nonGrowing_noting (describe : Visit → Node → α) (keys : List HandlerKey) :
    (noting describe keys).NonGrowing := by
  induction keys with
  | nil => exact Handlers.nonGrowing_none
  | cons key keys ih => exact ih.register key fun _ _ _ => Nat.le_refl _

/-- What is noted about the nodes of a tree whose keys are chosen. -/
def collect (describe : Visit → Node → α) (keys : List HandlerKey) (root : Node) : List α :=
  (run (noting describe keys) (nonGrowing_noting describe keys) root ⟨.empty, .start false, #[]⟩).2.log.toList

end Listfile.Walk
