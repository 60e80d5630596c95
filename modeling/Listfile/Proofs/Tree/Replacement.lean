import Listfile.Proofs.Tree.Position
/-! # Replacing what a tree stores

Putting another node where a step or a path leads to changes nothing else. The laws are those of a store: what is
put at a step is found there, other steps lead where they led before, and the last of two writes counts.
-/
namespace Listfile.Node
set_option autoImplicit false

def replaceStep (node : Node) (step : Step) (child : Node) : Node :=
  (node.setChild step.slot child).setChildren step.slot ((node.children step.slot).set step.index child)

/-- A path that leads nowhere replaces nothing. -/
def replaceAt (root : Node) : Path → Node → Node
  | [], new => new
  | step :: path, new =>
    match root.get? step with
    | none => root
    | some child => root.replaceStep step (child.replaceAt path new)

/-! ## One slot -/

section slots

variable (node child : Node) (nodes : List Node) (slot : Slot)

@[simp] theorem setChildren_children : node.setChildren slot (node.children slot) = node := by
  cases node <;> cases slot <;> rfl

@[simp] theorem setChildren_setChildren (nodes' : List Node) :
    (node.setChildren slot nodes).setChildren slot nodes' = node.setChildren slot nodes' := by
  cases node <;> cases slot <;> rfl

theorem setChild_setChild (child' : Node) :
    (node.setChild slot child).setChild slot child' = node.setChild slot child' := by
  cases node with
  | conditional _ _ _ elseClause => cases elseClause <;> cases slot <;> rfl
  | _ => cases slot <;> rfl

theorem children_setChild (slot' : Slot) : (node.setChild slot child).children slot' = node.children slot' := by
  cases node with
  | conditional _ _ _ elseClause => cases elseClause <;> cases slot <;> cases slot' <;> rfl
  | _ => cases slot <;> cases slot' <;> rfl

theorem child?_setChildren (slot' : Slot) : (node.setChildren slot nodes).child? slot' = node.child? slot' := by
  cases node <;> cases slot <;> cases slot' <;> rfl

variable {slot}

theorem child?_setChild_of_ne {slot' : Slot} (h : slot' ≠ slot) :
    (node.setChild slot child).child? slot' = node.child? slot' := by
  cases node with
  | conditional _ _ _ elseClause => cases elseClause <;> cases slot <;> cases slot' <;> simp_all [setChild, child?]
  | _ => cases slot <;> cases slot' <;> simp_all [setChild, child?]

theorem children_setChildren_of_ne {slot' : Slot} (h : slot' ≠ slot) :
    (node.setChildren slot nodes).children slot' = node.children slot' := by
  cases node <;> cases slot <;> cases slot' <;> simp_all [setChildren, children]

variable {node child}

theorem setChild_child? (h : node.child? slot = some child) : node.setChild slot child = node := by
  cases node <;> cases slot <;> simp_all [child?, setChild]

theorem setChild_of_none (h : node.child? slot = none) : node.setChild slot child = node := by
  cases node <;> cases slot <;> simp_all [child?, setChild]

theorem child?_of_children (h : node.children slot ≠ []) : node.child? slot = none := by
  cases node <;> cases slot <;> simp_all [child?, children]

theorem children_of_child? (h : node.child? slot = some child) : node.children slot = [] := by
  cases node <;> cases slot <;> simp_all [child?, children]

theorem children_setChildren (h : node.children slot ≠ []) : (node.setChildren slot nodes).children slot = nodes := by
  cases node <;> cases slot <;> simp_all [children, setChildren]

theorem setChildren_of_child? (h : node.child? slot = some child) : node.setChildren slot nodes = node := by
  cases node <;> cases slot <;> simp_all [child?, setChildren]

theorem child?_setChild (h : node.child? slot = some child) (child' : Node) :
    (node.setChild slot child').child? slot = some child' := by
  cases node <;> cases slot <;> simp_all [child?, setChild]

end slots

/-! ## Steps -/

theorem replaceStep_of_child? {node child : Node} {slot : Slot} (h : node.child? slot = some child) (index : Nat)
    (new : Node) : node.replaceStep ⟨slot, index⟩ new = node.setChild slot new := by
  rw [replaceStep, setChildren_of_child? _ (child?_setChild h new)]

theorem replaceStep_of_children {node : Node} {slot : Slot} (h : node.children slot ≠ []) (index : Nat) (new : Node) :
    node.replaceStep ⟨slot, index⟩ new = node.setChildren slot ((node.children slot).set index new) := by
  rw [replaceStep, setChild_of_none (child?_of_children h)]

theorem children_replaceStep {node : Node} {slot : Slot} (h : node.children slot ≠ []) (index : Nat) (new : Node) :
    (node.replaceStep ⟨slot, index⟩ new).children slot = (node.children slot).set index new := by
  rw [replaceStep_of_children h, children_setChildren _ h]

theorem children_replaceStep_ne_nil {node : Node} {slot : Slot} (h : node.children slot ≠ []) (index : Nat)
    (new : Node) : (node.replaceStep ⟨slot, index⟩ new).children slot ≠ [] := by
  rw [children_replaceStep h, ne_eq, List.set_eq_nil_iff]
  exact h

theorem get?_cases {node child : Node} {step : Step} (h : node.get? step = some child) :
    (node.child? step.slot = some child ∧ step.index = 0) ∨
      ((node.children step.slot)[step.index]? = some child ∧ node.children step.slot ≠ []) := by
  rw [get?, inSlot] at h
  cases hChild : node.child? step.slot with
  | none =>
    rw [hChild] at h
    refine .inr ⟨h, ?_⟩
    rintro hNil
    simp [hNil] at h
  | some only =>
    rw [hChild, children_of_child? hChild] at h
    rw [Option.toList_some, List.append_nil, List.getElem?_singleton] at h
    split at h
    · exact .inl ⟨h, ‹_›⟩
    · cases h

theorem get?_of_child? {node child : Node} {slot : Slot} (h : node.child? slot = some child) :
    node.get? ⟨slot, 0⟩ = some child := by
  simp [get?, inSlot, h]

theorem get?_of_children {node : Node} {slot : Slot} (h : node.children slot ≠ []) (index : Nat) :
    node.get? ⟨slot, index⟩ = (node.children slot)[index]? := by
  simp [get?, inSlot, child?_of_children h]

theorem kind?_replaceStep (node : Node) (step : Step) (new : Node) :
    (node.replaceStep step new).kind? = node.kind? := by
  obtain ⟨slot, index⟩ := step
  cases node with
  | conditional _ _ _ elseClause => cases elseClause <;> cases slot <;> rfl
  | _ => cases slot <;> rfl

theorem place_replaceStep (node : Node) (step : Step) (new : Node) :
    (node.replaceStep step new).place = node.place := by
  obtain ⟨slot, index⟩ := step
  cases node with
  | conditional _ _ _ elseClause => cases elseClause <;> cases slot <;> rfl
  | _ => cases slot <;> rfl

section frame

variable {node child : Node} {step : Step} (new : Node)

theorem get?_replaceStep_self (h : node.get? step = some child) :
    (node.replaceStep step new).get? step = some new := by
  obtain ⟨slot, index⟩ := step
  rcases get?_cases h with ⟨hChild, rfl⟩ | ⟨hGet, hNe⟩
  · rw [replaceStep_of_child? hChild]
    exact get?_of_child? (child?_setChild hChild new)
  · rw [get?_of_children (children_replaceStep_ne_nil hNe index new), children_replaceStep hNe]
    exact List.getElem?_set_self (List.getElem?_eq_some_iff.mp hGet).1

theorem replaceStep_replaceStep (h : node.get? step = some child) (new' : Node) :
    (node.replaceStep step new).replaceStep step new' = node.replaceStep step new' := by
  obtain ⟨slot, index⟩ := step
  rcases get?_cases h with ⟨hChild, rfl⟩ | ⟨hGet, hNe⟩
  · rw [replaceStep_of_child? hChild, replaceStep_of_child? (child?_setChild hChild new), replaceStep_of_child? hChild,
      setChild_setChild]
  · rw [replaceStep_of_children (children_replaceStep_ne_nil hNe index new), children_replaceStep hNe, List.set_set,
      replaceStep_of_children hNe, setChildren_setChildren, replaceStep_of_children hNe]

theorem replaceStep_get? (h : node.get? step = some child) : node.replaceStep step child = node := by
  obtain ⟨slot, index⟩ := step
  rcases get?_cases h with ⟨hChild, rfl⟩ | ⟨hGet, hNe⟩
  · rw [replaceStep_of_child? hChild, setChild_child? hChild]
  · obtain ⟨hLt, rfl⟩ := List.getElem?_eq_some_iff.mp hGet
    rw [replaceStep_of_children hNe, List.set_getElem_self, setChildren_children]

theorem child?_replaceStep_of_ne {slot : Slot} (h : slot ≠ step.slot) :
    (node.replaceStep step new).child? slot = node.child? slot := by
  rw [replaceStep, child?_setChildren, child?_setChild_of_ne _ _ h]

theorem children_replaceStep_of_ne {slot : Slot} (h : slot ≠ step.slot) :
    (node.replaceStep step new).children slot = node.children slot := by
  rw [replaceStep, children_setChildren_of_ne _ _ h, children_setChild]

theorem get?_replaceStep_of_ne {other : Step} (h : node.get? step = some child) (hNe : other ≠ step) :
    (node.replaceStep step new).get? other = node.get? other := by
  by_cases hSlot : other.slot = step.slot
  · obtain ⟨slot, index⟩ := step
    obtain ⟨_, index'⟩ := other
    cases hSlot
    have hIndex : index' ≠ index := fun h => hNe (by rw [h])
    rcases get?_cases h with ⟨hChild, rfl⟩ | ⟨hGet, hChildren⟩
    · rw [replaceStep_of_child? hChild, get?, get?, inSlot, inSlot, child?_setChild hChild, hChild, children_setChild,
        children_of_child? hChild]
      simp [hIndex]
    · rw [get?_of_children (children_replaceStep_ne_nil hChildren index new), children_replaceStep hChildren,
        get?_of_children hChildren, List.getElem?_set_ne hIndex.symm]
  · rw [get?, get?, inSlot, inSlot, child?_replaceStep_of_ne new hSlot, children_replaceStep_of_ne new hSlot]

end frame

end Listfile.Node
