import Listfile.Tree.Schema
/-! # Positions in a tree

A step names a slot and a place in it, and a path of steps leads from the root of a tree to a node that is stored
in it. What a node stores is read off its constructor, without the schema and the accessors of slots; that these
agree with it is proved here. Nothing is stored below a node of unknown kind.
-/
namespace Listfile
set_option autoImplicit false

structure Step where
  slot : Slot
  index : Nat
deriving DecidableEq, Repr

abbrev Path := List Step

namespace Node

def enumerateFrom (slot : Slot) : Nat → List Node → List (Step × Node)
  | _, [] => []
  | index, node :: rest => (⟨slot, index⟩, node) :: enumerateFrom slot (index + 1) rest

/-- The nodes that a node stores, with the steps that lead to them, in the order of its fields. -/
def stored : Node → List (Step × Node)
  | toplevel _ statements => enumerateFrom .statements 0 statements
  | block _ _ header body footer =>
    enumerateFrom .header 0 [header] ++ enumerateFrom .body 0 body ++ enumerateFrom .footer 0 [footer]
  | conditional _ ifClause elseifs elseClause footer =>
    enumerateFrom .ifClause 0 [ifClause] ++ enumerateFrom .elseifClauses 0 elseifs ++
      enumerateFrom .elseClause 0 elseClause.toList ++ enumerateFrom .footer 0 [footer]
  | clause _ _ header body => enumerateFrom .header 0 [header] ++ enumerateFrom .body 0 body
  | call _ _ arguments => enumerateFrom .arguments 0 arguments
  | inclusion .. | word .. | unrecognized .. => []

/-- The nodes in a slot, of which there is at most one if the slot holds one child. -/
def inSlot (node : Node) (slot : Slot) : List Node := (node.child? slot).toList ++ node.children slot

def get? (node : Node) (step : Step) : Option Node := (node.inSlot step.slot)[step.index]?

/-- `root.At path node` says that `root` stores `node` at the end of the path. -/
inductive At : Node → Path → Node → Prop
  | here (node : Node) : At node [] node
  | step {node child target : Node} {step : Step} {path : Path} :
    (step, child) ∈ node.stored → At child path target → At node (step :: path) target

/-- The nodes that are visited directly below a node, with the steps that lead to them: in the order of the slots
in the schema of its kind, and those in one slot in sequence. -/
def successors (node : Node) : List (Step × Node) :=
  match node.kind? with
  | none => []
  | some kind =>
    kind.schema.single.flatMap (fun slot => enumerateFrom slot 0 (node.child? slot).toList) ++
      kind.schema.multi.flatMap fun slot => enumerateFrom slot 0 (node.children slot)

/-! ## What a node stores -/

theorem mem_enumerateFrom {slot : Slot} {start : Nat} {nodes : List Node} {step : Step} {node : Node} :
    (step, node) ∈ enumerateFrom slot start nodes ↔
      step.slot = slot ∧ start ≤ step.index ∧ nodes[step.index - start]? = some node := by
  induction nodes generalizing start with
  | nil => simp [enumerateFrom]
  | cons first rest ih =>
    obtain ⟨slot', index⟩ := step
    simp only [enumerateFrom, List.mem_cons, Prod.mk.injEq, Step.mk.injEq, ih]
    constructor
    · rintro (⟨⟨rfl, rfl⟩, rfl⟩ | ⟨rfl, hLe, hGet⟩)
      · simp
      · refine ⟨rfl, by omega, ?_⟩
        rw [show index - start = index - (start + 1) + 1 by omega]
        exact hGet
    · rintro ⟨rfl, hLe, hGet⟩
      rcases Nat.eq_or_lt_of_le hLe with rfl | hLt
      · exact .inl ⟨⟨rfl, rfl⟩, by simpa using hGet.symm⟩
      · refine .inr ⟨rfl, hLt, ?_⟩
        rw [show index - start = index - (start + 1) + 1 by omega] at hGet
        exact hGet

theorem enumerateFrom_map (f : Node → Node) (slot : Slot) (start : Nat) (nodes : List Node) :
    enumerateFrom slot start (nodes.map f) = (enumerateFrom slot start nodes).map fun edge => (edge.1, f edge.2) := by
  induction nodes generalizing start with
  | nil => rfl
  | cons node rest ih => rw [List.map_cons, enumerateFrom, enumerateFrom, ih, List.map_cons]

theorem map_snd_enumerateFrom (slot : Slot) (start : Nat) (nodes : List Node) :
    (enumerateFrom slot start nodes).map Prod.snd = nodes := by
  induction nodes generalizing start with
  | nil => rfl
  | cons first rest ih => simp [enumerateFrom, ih]

theorem sizeAll_append (nodes others : List Node) : sizeAll (nodes ++ others) = sizeAll nodes + sizeAll others := by
  induction nodes with
  | nil => simp [sizeAll]
  | cons first rest ih => simp only [List.cons_append, sizeAll, ih, Nat.add_assoc]

theorem size_eq_stored (node : Node) : node.size = sizeAll (node.stored.map Prod.snd) + 1 := by
  have hOption (other : Option Node) : sizeAll other.toList = sizeOption other := by
    cases other <;> simp [sizeAll, sizeOption]
  cases node <;> simp [stored, size, map_snd_enumerateFrom, sizeAll_append, sizeAll, hOption] <;> omega

theorem mem_stored {node child : Node} {step : Step} : (step, child) ∈ node.stored ↔ node.get? step = some child := by
  obtain ⟨slot, index⟩ := step
  cases node <;> cases slot <;>
    simp [stored, mem_enumerateFrom, get?, inSlot, child?, children]

theorem kind?_of_mem_stored {node child : Node} {step : Step} (h : (step, child) ∈ node.stored) :
    node.kind?.isSome := by
  cases node with
  | unrecognized => cases h
  | _ => rfl

theorem At.unique {root a b : Node} {path : Path} (ha : root.At path a) (hb : root.At path b) : a = b := by
  induction ha with
  | here => cases hb; rfl
  | step hStored _ ih =>
    cases hb with
    | step hStored' hb =>
      have hGet := mem_stored.mp hStored
      rw [mem_stored.mp hStored', Option.some.injEq] at hGet
      exact ih (hGet ▸ hb)

def nodeAt? (root : Node) : Path → Option Node
  | [] => some root
  | step :: path =>
    match root.get? step with
    | none => none
    | some child => child.nodeAt? path

theorem nodeAt?_eq_some {root node : Node} {path : Path} : root.nodeAt? path = some node ↔ root.At path node := by
  induction path generalizing root with
  | nil =>
    constructor
    · intro h
      cases h
      exact .here _
    · intro h
      cases h
      rfl
  | cons step path ih =>
    rw [nodeAt?]
    constructor
    · intro h
      split at h
      · cases h
      · exact .step (mem_stored.mpr ‹_›) (ih.mp h)
    · intro h
      cases h with
      | step hStored hAt =>
        rw [mem_stored.mp hStored]
        exact ih.mpr hAt

theorem nodeAt?_cons {root child : Node} {step : Step} (h : root.get? step = some child) (path : Path) :
    root.nodeAt? (step :: path) = child.nodeAt? path := by
  rw [nodeAt?, h]

theorem size_lt_of_mem_stored {node child : Node} {step : Step} (h : (step, child) ∈ node.stored) :
    child.size < node.size := by
  have hLe : child.size ≤ sizeAll (node.stored.map Prod.snd) := size_le_sizeAll (List.mem_map_of_mem (f := Prod.snd) h)
  rw [size_eq_stored node]
  omega

/-! ## The schema -/

theorem successors_block (place : Location) (form : BlockForm) (header footer : Node) (body : List Node) :
    (block place form header body footer).successors =
      enumerateFrom .header 0 [header] ++ enumerateFrom .footer 0 [footer] ++ enumerateFrom .body 0 body := by
  cases form <;> simp [successors, kind?, Kind.schema, BlockForm.kind, child?, children]

theorem successors_clause (place : Location) (form : ClauseForm) (header : Node) (body : List Node) :
    (clause place form header body).successors =
      enumerateFrom .header 0 [header] ++ enumerateFrom .body 0 body := by
  cases form <;> simp [successors, kind?, Kind.schema, ClauseForm.kind, child?, children]

theorem successors_conditional (place : Location) (ifClause footer : Node) (elseifs : List Node)
    (elseClause : Option Node) :
    (conditional place ifClause elseifs elseClause footer).successors =
      enumerateFrom .ifClause 0 [ifClause] ++ enumerateFrom .elseClause 0 elseClause.toList ++
        enumerateFrom .footer 0 [footer] ++ enumerateFrom .elseifClauses 0 elseifs := by
  simp [successors, kind?, Kind.schema, child?, children]

/-- The schema has every field of a kind once, and the accessors give what is stored there. -/
theorem perm_successors_stored (node : Node) : node.successors.Perm node.stored := by
  cases node with
  | toplevel => simp [successors, stored, kind?, Kind.schema, children]
  | block =>
    rw [successors_block, stored, List.append_assoc, List.append_assoc]
    exact List.perm_append_comm.append_left _
  | conditional =>
    rw [successors_conditional, stored, List.append_assoc, List.append_assoc, List.append_assoc, List.append_assoc]
    refine List.Perm.append_left _ (List.Perm.trans ?_ List.perm_append_comm)
    rw [List.append_assoc]
  | clause => rw [successors_clause, stored]
  | call => simp [successors, stored, kind?, Kind.schema, children]
  | inclusion => simp [successors, stored, kind?, Kind.schema]
  | word => simp [successors, stored, kind?, Kind.schema]
  | unrecognized => simp [successors, stored, kind?]

end Node
end Listfile
