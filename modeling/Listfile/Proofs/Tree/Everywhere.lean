import Listfile.Proofs.Tree.Position
/-! # Properties of all nodes of a tree

A property holds everywhere in a tree if it holds of every node that the tree stores, at whatever position. For each
kind of node this is a property of the node itself and of the trees in its fields.
-/
namespace Listfile.Node
set_option autoImplicit false

variable {property property' : Node → Prop} {place : Location}

def Everywhere (property : Node → Prop) (root : Node) : Prop := ∀ path node, root.At path node → property node

theorem Everywhere.self {root : Node} (h : root.Everywhere property) : property root := h [] root (.here root)

theorem Everywhere.imp {root : Node} (h : root.Everywhere property) (hImp : ∀ node, property node → property' node) :
    root.Everywhere property' := fun path node hAt => hImp node (h path node hAt)

theorem Everywhere.and {root : Node} (h : root.Everywhere property) (h' : root.Everywhere property') :
    root.Everywhere fun node => property node ∧ property' node :=
  fun path node hAt => ⟨h path node hAt, h' path node hAt⟩

theorem everywhere_iff {root : Node} :
    root.Everywhere property ↔ property root ∧ ∀ child ∈ root.stored.map Prod.snd, child.Everywhere property := by
  constructor
  · intro h
    refine ⟨h.self, fun child hChild path node hAt => ?_⟩
    obtain ⟨⟨step, _⟩, hStored, rfl⟩ := List.mem_map.mp hChild
    exact h (step :: path) node (.step hStored hAt)
  · rintro ⟨hRoot, hStored⟩ path node hAt
    cases hAt with
    | here => exact hRoot
    | step hChild hAt => exact hStored _ (List.mem_map_of_mem hChild) _ node hAt

theorem everywhere_toplevel {statements : List Node} : (toplevel place statements).Everywhere property ↔
    property (toplevel place statements) ∧ ∀ node ∈ statements, node.Everywhere property := by
  rw [everywhere_iff, stored, map_snd_enumerateFrom]

theorem everywhere_block {form : BlockForm} {header footer : Node} {body : List Node} :
    (block place form header body footer).Everywhere property ↔ property (block place form header body footer) ∧
      header.Everywhere property ∧ (∀ node ∈ body, node.Everywhere property) ∧ footer.Everywhere property := by
  rw [everywhere_iff]
  simp [stored, map_snd_enumerateFrom, or_imp, forall_and]

theorem everywhere_conditional {ifClause footer : Node} {elseifs : List Node} {elseClause : Option Node} :
    (conditional place ifClause elseifs elseClause footer).Everywhere property ↔
      property (conditional place ifClause elseifs elseClause footer) ∧ ifClause.Everywhere property ∧
        (∀ node ∈ elseifs, node.Everywhere property) ∧ (∀ node ∈ elseClause, node.Everywhere property) ∧
          footer.Everywhere property := by
  rw [everywhere_iff]
  simp [stored, map_snd_enumerateFrom, or_imp, forall_and]

theorem everywhere_clause {form : ClauseForm} {header : Node} {body : List Node} :
    (clause place form header body).Everywhere property ↔ property (clause place form header body) ∧
      header.Everywhere property ∧ ∀ node ∈ body, node.Everywhere property := by
  rw [everywhere_iff]
  simp [stored, map_snd_enumerateFrom]

theorem everywhere_call {name : String} {arguments : List Node} : (call place name arguments).Everywhere property ↔
    property (call place name arguments) ∧ ∀ node ∈ arguments, node.Everywhere property := by
  rw [everywhere_iff, stored, map_snd_enumerateFrom]

/-- Nothing is stored below the nodes of the other kinds. -/
theorem everywhere_leaf {root : Node} (hLeaf : root.stored = []) : root.Everywhere property ↔ property root := by
  rw [everywhere_iff, hLeaf]
  simp

end Listfile.Node
