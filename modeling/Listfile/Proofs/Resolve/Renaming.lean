import Listfile.Proofs.Walk.Fold
/-! # Renaming inclusions

The tree in which every inclusion has another filename, chosen by its position and the old one, and everything else
is as it was. It is given by recursion on the tree, without the walk; edits of one inclusion after the other come to
the same.
-/
namespace Listfile.Node
set_option autoImplicit false

def renameFile (rename : String → String) : Node → Node
  | inclusion place filename options => inclusion place (rename filename) options
  | other => other

mutual

def renameInclusions (rename : Path → String → String) : Node → Node
  | toplevel place statements => toplevel place (renameAll rename .statements 0 statements)
  | block place form header body footer =>
    block place form (renameInclusions (fun path => rename (⟨.header, 0⟩ :: path)) header)
      (renameAll rename .body 0 body) (renameInclusions (fun path => rename (⟨.footer, 0⟩ :: path)) footer)
  | conditional place ifClause elseifs elseClause footer =>
    conditional place (renameInclusions (fun path => rename (⟨.ifClause, 0⟩ :: path)) ifClause)
      (renameAll rename .elseifClauses 0 elseifs) (renameOption rename .elseClause elseClause)
      (renameInclusions (fun path => rename (⟨.footer, 0⟩ :: path)) footer)
  | clause place form header body =>
    clause place form (renameInclusions (fun path => rename (⟨.header, 0⟩ :: path)) header)
      (renameAll rename .body 0 body)
  | call place name arguments => call place name (renameAll rename .arguments 0 arguments)
  | inclusion place filename options => inclusion place (rename [] filename) options
  | word place type contents => word place type contents
  | unrecognized place tag payload => unrecognized place tag payload

def renameAll (rename : Path → String → String) (slot : Slot) : Nat → List Node → List Node
  | _, [] => []
  | index, node :: rest =>
    renameInclusions (fun path => rename (⟨slot, index⟩ :: path)) node :: renameAll rename slot (index + 1) rest

def renameOption (rename : Path → String → String) (slot : Slot) : Option Node → Option Node
  | none => none
  | some node => some (renameInclusions (fun path => rename (⟨slot, 0⟩ :: path)) node)

end

/-- The edit that renames what it is given. -/
def fileEdit (rename : Path → String → String) (path : Path) (node : Node) (_ : Unit) : Node × Unit :=
  (node.renameFile (rename path), ())

theorem renameFile_sameShape (rename : String → String) (node : Node) : (node.renameFile rename).SameShape node := by
  cases node with
  | inclusion => exact ⟨rfl, fun slot => by cases slot <;> rfl, fun slot => by cases slot <;> rfl⟩
  | _ => exact .refl _

theorem editAll_fileEdit_eq (rename : Path → String → String) (node : Node) :
    node.editAll (fileEdit rename) () = node.successors.foldl
      (editSuccessor fun step child => child.editAll (fileEdit fun path => rename (step :: path)))
      (node.renameFile (rename []), ()) :=
  editAll_eq (fun path node _ => renameFile_sameShape (rename path) node) node ()

/-- Renaming one inclusion after the other, below a step. -/
abbrev editBelow (rename : Path → String → String) (step : Step) (child : Node) : Unit → Node × Unit :=
  child.editAll (fileEdit fun path => rename (step :: path))

theorem foldl_editBelow_child {rename : Path → String → String} {node child new : Node} {slot : Slot}
    (h : node.child? slot = some child) (hNew : editBelow rename ⟨slot, 0⟩ child () = (new, ())) :
    (enumerateFrom slot 0 [child]).foldl (editSuccessor (editBelow rename)) (node, ()) =
      (node.setChild slot new, ()) := by
  rw [foldl_editSuccessor_child _ h, hNew]

theorem foldl_editBelow_children {rename : Path → String → String} {node : Node} {new : List Node} {slot : Slot}
    (nodes : List Node) (h : node.children slot = nodes)
    (hNew : editSlot (editBelow rename) slot 0 nodes () = (new, ())) :
    (enumerateFrom slot 0 nodes).foldl (editSuccessor (editBelow rename)) (node, ()) =
      (node.setChildren slot new, ()) := by
  rw [← h, foldl_editSuccessor_children, h, hNew]

mutual

/-- Renaming one inclusion after the other renames them all. -/
theorem editAll_fileEdit (rename : Path → String → String) (node : Node) :
    node.editAll (fileEdit rename) () = (node.renameInclusions rename, ()) := by
  rw [editAll_fileEdit_eq]
  cases node with
  | toplevel place statements =>
    have hSuccessors : (toplevel place statements).successors = enumerateFrom .statements 0 statements := by
      simp [successors, kind?, Kind.schema, children]
    rw [hSuccessors, foldl_editBelow_children statements rfl (editSlot_fileEdit rename .statements 0 statements)]
    rfl
  | block place form header body footer =>
    rw [successors_block, List.foldl_append, List.foldl_append,
      foldl_editBelow_child rfl (editAll_fileEdit _ header), foldl_editBelow_child rfl (editAll_fileEdit _ footer),
      foldl_editBelow_children body rfl (editSlot_fileEdit rename .body 0 body)]
    rfl
  | conditional place ifClause elseifs elseClause footer =>
    rw [successors_conditional, List.foldl_append, List.foldl_append, List.foldl_append,
      foldl_editBelow_child rfl (editAll_fileEdit _ ifClause)]
    cases elseClause with
    | none =>
      rw [Option.toList_none, enumerateFrom, List.foldl_nil, foldl_editBelow_child rfl (editAll_fileEdit _ footer),
        foldl_editBelow_children elseifs rfl (editSlot_fileEdit rename .elseifClauses 0 elseifs)]
      rfl
    | some elseClause =>
      rw [Option.toList_some, foldl_editBelow_child rfl (editAll_fileEdit _ elseClause),
        foldl_editBelow_child rfl (editAll_fileEdit _ footer),
        foldl_editBelow_children elseifs rfl (editSlot_fileEdit rename .elseifClauses 0 elseifs)]
      rfl
  | clause place form header body =>
    rw [successors_clause, List.foldl_append, foldl_editBelow_child rfl (editAll_fileEdit _ header),
      foldl_editBelow_children body rfl (editSlot_fileEdit rename .body 0 body)]
    rfl
  | call place name arguments =>
    have hSuccessors : (call place name arguments).successors = enumerateFrom .arguments 0 arguments := by
      simp [successors, kind?, Kind.schema, children]
    rw [hSuccessors, foldl_editBelow_children arguments rfl (editSlot_fileEdit rename .arguments 0 arguments)]
    rfl
  | inclusion => simp [successors, kind?, Kind.schema, renameInclusions, renameFile]
  | word => simp [successors, kind?, Kind.schema, renameInclusions, renameFile]
  | unrecognized => simp [successors, kind?, renameInclusions, renameFile]

theorem editSlot_fileEdit (rename : Path → String → String) (slot : Slot) (index : Nat) (nodes : List Node) :
    editSlot (editBelow rename) slot index nodes () = (renameAll rename slot index nodes, ()) := by
  cases nodes with
  | nil => rfl
  | cons node rest =>
    rw [editSlot, editBelow, editAll_fileEdit, renameAll]
    simp only [editSlot_fileEdit rename slot (index + 1) rest]

end

/-- It matters only how the inclusions that stand in a tree are renamed. -/
theorem renameInclusions_congr {rename rename' : Path → String → String} {root : Node}
    (h : ∀ path place filename options, root.At path (inclusion place filename options) →
      rename path filename = rename' path filename) :
    root.renameInclusions rename = root.renameInclusions rename' := by
  have hEdits : root.editAll (fileEdit rename) () = root.editAll (fileEdit rename') () := by
    apply editAll_congr
    intro path node hAt state
    cases node with
    | inclusion place filename options => simp only [fileEdit, renameFile, h path place filename options hAt]
    | _ => rfl
  rw [editAll_fileEdit, editAll_fileEdit] at hEdits
  exact congrArg Prod.fst hEdits

/-! ## What stands where -/

theorem enumerateFrom_renameAll (rename : Path → String → String) (slot : Slot) (index : Nat) (nodes : List Node) :
    enumerateFrom slot index (renameAll rename slot index nodes) = (enumerateFrom slot index nodes).map
      fun edge => (edge.1, edge.2.renameInclusions fun path => rename (edge.1 :: path)) := by
  induction nodes generalizing index with
  | nil => rfl
  | cons node rest ih => rw [renameAll, enumerateFrom, ih, enumerateFrom, List.map_cons]

theorem stored_renameInclusions (rename : Path → String → String) (node : Node) :
    (node.renameInclusions rename).stored =
      node.stored.map fun edge => (edge.1, edge.2.renameInclusions fun path => rename (edge.1 :: path)) := by
  cases node with
  | conditional place ifClause elseifs elseClause footer =>
    cases elseClause <;> simp [renameInclusions, renameOption, stored, enumerateFrom, enumerateFrom_renameAll]
  | _ => simp [renameInclusions, stored, enumerateFrom, enumerateFrom_renameAll]

/-- What stands in the renamed tree is what stood there before, renamed. -/
theorem at_renameInclusions {rename : Path → String → String} {root node : Node} {path : Path} :
    (root.renameInclusions rename).At path node ↔ ∃ before, root.At path before ∧
      node = before.renameInclusions fun below => rename (path ++ below) := by
  induction path generalizing root rename with
  | nil =>
    constructor
    · rintro ⟨⟩
      exact ⟨root, .here root, rfl⟩
    · rintro ⟨_, ⟨⟩, rfl⟩
      exact .here _
  | cons step path ih =>
    constructor
    · rintro (_ | ⟨hStored, hAt⟩)
      rw [stored_renameInclusions] at hStored
      obtain ⟨⟨_, child⟩, hChild, hEdge⟩ := List.mem_map.mp hStored
      cases hEdge
      obtain ⟨before, hBefore, rfl⟩ := ih.mp hAt
      exact ⟨before, .step hChild hBefore, rfl⟩
    · rintro ⟨before, ⟨⟩ | ⟨hStored, hAt⟩, rfl⟩
      have hChild := List.mem_map_of_mem (f := fun (edge : Step × Node) =>
        (edge.1, edge.2.renameInclusions fun path => rename (edge.1 :: path))) hStored
      rw [← stored_renameInclusions] at hChild
      exact .step hChild (ih.mpr ⟨before, hAt, rfl⟩)

theorem kind?_renameInclusions (rename : Path → String → String) (node : Node) :
    (node.renameInclusions rename).kind? = node.kind? := by
  cases node <;> rfl

theorem child?_renameInclusions (rename : Path → String → String) (node : Node) (slot : Slot) :
    (node.renameInclusions rename).child? slot =
      (node.child? slot).map (renameInclusions fun path => rename (⟨slot, 0⟩ :: path)) := by
  cases node with
  | conditional place ifClause elseifs elseClause footer => cases slot <;> cases elseClause <;> rfl
  | _ => cases slot <;> rfl

theorem children_renameInclusions (rename : Path → String → String) (node : Node) (slot : Slot) :
    (node.renameInclusions rename).children slot = renameAll rename slot 0 (node.children slot) := by
  cases node <;> cases slot <;> rfl

theorem successors_renameInclusions (rename : Path → String → String) (node : Node) :
    (node.renameInclusions rename).successors = node.successors.map
      fun edge => (edge.1, edge.2.renameInclusions fun path => rename (edge.1 :: path)) := by
  cases hKind : node.kind? with
  | none => simp [successors, kind?_renameInclusions, hKind]
  | some kind =>
    simp only [successors, kind?_renameInclusions, hKind, child?_renameInclusions, children_renameInclusions,
      List.map_append, List.map_flatMap, enumerateFrom_renameAll]
    congr 1
    refine List.flatMap_congr fun slot _ => ?_
    cases node.child? slot <;> rfl

/-- A walk comes to the same positions of the renamed tree, and finds there what was there before, renamed. -/
theorem walkOrder_renameInclusions (rename : Path → String → String) (root : Node) :
    (root.renameInclusions rename).walkOrder = root.walkOrder.map
      fun entry => (entry.1, entry.2.renameInclusions fun path => rename (entry.1 ++ path)) := by
  refine walkOrder_map (f := fun before node => node.renameInclusions fun path => rename (before ++ path)) ?_ [] root
  intro before node
  simp only [successors_renameInclusions, List.append_assoc, List.singleton_append]

mutual

theorem renameInclusions_id (node : Node) : node.renameInclusions (fun _ => id) = node := by
  cases node with
  | toplevel place statements => simp only [renameInclusions, renameAll_id]
  | block place form header body footer => simp only [renameInclusions, renameInclusions_id, renameAll_id]
  | conditional place ifClause elseifs elseClause footer =>
    cases elseClause with
    | none => simp only [renameInclusions, renameOption, renameInclusions_id, renameAll_id]
    | some elseClause => simp only [renameInclusions, renameOption, renameInclusions_id, renameAll_id]
  | clause place form header body => simp only [renameInclusions, renameInclusions_id, renameAll_id]
  | call place name arguments => simp only [renameInclusions, renameAll_id]
  | inclusion | word | unrecognized => rfl

theorem renameAll_id (slot : Slot) (index : Nat) (nodes : List Node) :
    renameAll (fun _ => id) slot index nodes = nodes := by
  cases nodes with
  | nil => rfl
  | cons node rest => simp only [renameAll, renameInclusions_id, renameAll_id]

end

mutual

/-- To rename twice is to rename once by both names, the later one after the earlier. -/
theorem renameInclusions_renameInclusions (first second : Path → String → String) (node : Node) :
    (node.renameInclusions first).renameInclusions second =
      node.renameInclusions fun path => second path ∘ first path := by
  cases node with
  | toplevel place statements => simp only [renameInclusions, renameAll_renameAll]
  | block place form header body footer =>
    simp only [renameInclusions, renameInclusions_renameInclusions, renameAll_renameAll]
  | conditional place ifClause elseifs elseClause footer =>
    cases elseClause with
    | none => simp only [renameInclusions, renameOption, renameInclusions_renameInclusions, renameAll_renameAll]
    | some elseClause =>
      simp only [renameInclusions, renameOption, renameInclusions_renameInclusions, renameAll_renameAll]
  | clause place form header body =>
    simp only [renameInclusions, renameInclusions_renameInclusions, renameAll_renameAll]
  | call place name arguments => simp only [renameInclusions, renameAll_renameAll]
  | inclusion | word | unrecognized => rfl

theorem renameAll_renameAll (first second : Path → String → String) (slot : Slot) (index : Nat)
    (nodes : List Node) : renameAll second slot index (renameAll first slot index nodes) =
      renameAll (fun path => second path ∘ first path) slot index nodes := by
  cases nodes with
  | nil => rfl
  | cons node rest => simp only [renameAll, renameInclusions_renameInclusions, renameAll_renameAll]

end

theorem renameInclusions_eq_unrecognized {rename : Path → String → String} {node : Node} {place : Location}
    {tag : String} {payload : Json} :
    node.renameInclusions rename = unrecognized place tag payload ↔ node = unrecognized place tag payload := by
  cases node <;> simp [renameInclusions]

end Listfile.Node
