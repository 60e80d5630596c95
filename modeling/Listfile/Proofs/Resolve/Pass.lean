import Listfile.Proofs.Resolve.Renaming
import Listfile.Proofs.SymbolTable.History
import Listfile.Proofs.Walk.Dispatch
import Listfile.Resolve
/-! # Resolution in one pass

Resolving the inclusions of a tree comes to one pass over what the walk reaches. The table in effect at a position
has the definitions that stand before it, of which the last one of a name counts, on top of those of the seed; every
inclusion is expanded with the table in effect where it stands, and nothing else changes.
-/
namespace Listfile
set_option autoImplicit false

namespace Node

/-- The nodes that a walk reaches and knows, with their positions, in its order. -/
def reached (root : Node) : List (Path × Node) := root.walkOrder.filter fun entry => entry.2.kind?.isSome

/-- The name and the value that a node assigns: a call of the command with two words that stand for themselves. -/
def assignment? (command : String) : Node → Option (String × String)
  | call _ name [word _ nameType key, word _ valueType value] =>
    if sameCommand name command ∧ nameType.isLiteral ∧ valueType.isLiteral then some (key, value) else none
  | _ => none

end Node

namespace Resolve

/-- The assignments that a walk reaches before it comes to a position. -/
def definitionsBefore (command : String) (root : Node) (path : Path) : List (String × String) :=
  (root.reached.takeWhile (·.1 ≠ path)).filterMap (·.2.assignment? command)

def tableAt (command : String) (seed : SymbolTable) (root : Node) (path : Path) : SymbolTable :=
  seed.defineAll (definitionsBefore command root path)

def expanded (symbols : SymbolTable) (filename : String) : String :=
  match expand filename symbols with
  | .expanded text => text
  | .noReference | .malformed | .undefined _ => filename

/-! ## One node -/

def definedBy (command : String) (symbols : SymbolTable) (node : Node) : SymbolTable :=
  symbols.defineAll (node.assignment? command).toList

theorem definedBy_some {command : String} {symbols : SymbolTable} {node : Node} {definition : String × String}
    (h : node.assignment? command = some definition) :
    definedBy command symbols node = symbols.define definition.1 definition.2 := by
  rw [definedBy, h]
  rfl

theorem definedBy_none {command : String} {symbols : SymbolTable} {node : Node}
    (h : node.assignment? command = none) : definedBy command symbols node = symbols := by
  rw [definedBy, h]
  rfl

/-- A word that stands for itself is one of a literal type. -/
theorem literal?_eq_some {node : Node} {text : String} :
    node.literal? = some text ↔ ∃ place type, node = .word place type text ∧ type.isLiteral := by
  cases node with
  | word place type contents =>
    rw [Node.literal?]
    split <;> simp_all
  | _ => simp [Node.literal?]

theorem assignment?_eq_some {command : String} {node : Node} {key value : String} :
    node.assignment? command = some (key, value) ↔ ∃ place name first second,
      node = .call place name [first, second] ∧ sameCommand name command ∧
        first.literal? = some key ∧ second.literal? = some value := by
  simp only [literal?_eq_some]
  constructor
  · intro h
    unfold Node.assignment? at h
    split at h
    · split at h
      · cases h
        rename_i hLiteral
        exact ⟨_, _, _, _, rfl, hLiteral.1, ⟨_, _, rfl, hLiteral.2.1⟩, ⟨_, _, rfl, hLiteral.2.2⟩⟩
      · cases h
    · cases h
  · rintro ⟨_, _, _, _, rfl, hName, ⟨_, _, rfl, hKey⟩, ⟨_, _, rfl, hValue⟩⟩
    exact if_pos ⟨hName, hKey, hValue⟩

/-- What a call assigns is a matter of its name and of the texts that its arguments stand for. -/
theorem assignment?_congr {command : String} {place place' : Location} {name name' : String}
    {arguments arguments' : List Node} (hName : sameCommand name command = sameCommand name' command)
    (hArguments : arguments.map Node.literal? = arguments'.map Node.literal?) :
    (Node.call place name arguments).assignment? command = (Node.call place' name' arguments').assignment? command := by
  have hSome (place : Location) (name : String) (arguments : List Node) (key value : String) :
      (Node.call place name arguments).assignment? command = some (key, value) ↔
        sameCommand name command ∧ arguments.map Node.literal? = [some key, some value] := by
    rw [assignment?_eq_some]
    constructor
    · rintro ⟨_, _, first, second, hCall, hName, hKey, hValue⟩
      cases hCall
      exact ⟨hName, by rw [List.map_cons, List.map_cons, hKey, hValue, List.map_nil]⟩
    · rintro ⟨hName, hLiterals⟩
      obtain ⟨first, rest, rfl, hKey, hRest⟩ := List.map_eq_cons_iff.mp hLiterals
      obtain ⟨second, _, rfl, hValue, hNil⟩ := List.map_eq_cons_iff.mp hRest
      obtain rfl := List.map_eq_nil_iff.mp hNil
      exact ⟨_, _, _, _, rfl, hName, hKey, hValue⟩
  refine Option.ext fun ⟨key, value⟩ => ?_
  rw [hSome, hSome, hName, hArguments]

/-- What is recorded of a call is a matter of the same. -/
theorem record_eq (command name : String) (arguments : List Node) (symbols : SymbolTable) :
    Assignment.record command name arguments symbols =
      if sameCommand name command then
        match arguments.map Node.literal? with
        | [some key, some value] => (.recorded key (symbols.lookup? key), symbols.define key value)
        | [_, _] => (.nonLiteral, symbols)
        | texts => (.wrongArity texts.length, symbols)
      else (.notAssignment, symbols) := by
  unfold Assignment.record
  split
  · rcases arguments with _ | ⟨first, _ | ⟨second, _ | ⟨third, rest⟩⟩⟩
    · rfl
    · simp
    · cases hFirst : first.literal? <;> cases hSecond : second.literal? <;> simp [hFirst, hSecond]
    · simp
  · rfl

theorem record_congr {command name name' : String} {arguments arguments' : List Node}
    (hName : sameCommand name command = sameCommand name' command)
    (hArguments : arguments.map Node.literal? = arguments'.map Node.literal?) (symbols : SymbolTable) :
    Assignment.record command name arguments symbols = Assignment.record command name' arguments' symbols := by
  rw [record_eq, hName, hArguments, record_eq]

theorem symbols_record (command : String) (place : Location) (name : String) (arguments : List Node)
    (symbols : SymbolTable) :
    (Assignment.record command name arguments symbols).2 = definedBy command symbols (.call place name arguments) := by
  cases h : (Node.call place name arguments).assignment? command with
  | some definition =>
    obtain ⟨_, _, first, second, hCall, hName, hKey, hValue⟩ := assignment?_eq_some.mp h
    cases hCall
    rw [definedBy_some h, Assignment.record, if_pos hName]
    simp only [hKey, hValue, SymbolTable.exchange_eq]
  | none =>
    rw [definedBy_none h]
    unfold Assignment.record
    split
    · rename_i hName
      split
      · split
        · rename_i hKey hValue
          rw [assignment?_eq_some.mpr ⟨_, _, _, _, rfl, hName, hKey, hValue⟩] at h
          cases h
        · rfl
      · rfl
    · rfl

theorem substitute_fst (symbols : SymbolTable) (node : Node) :
    (node.substitute symbols).1 = node.renameFile (expanded symbols) := by
  unfold Node.substitute Node.renameFile expanded
  cases node with
  | inclusion place filename options =>
    cases h : expand filename symbols <;> simp only [h]
  | _ => rfl

variable {σ : Type}

theorem symbols_assign (command : String) (node : Node) (state : WalkState σ) :
    (Assignment.handle command node state).symbols = definedBy command state.symbols node := by
  cases node with
  | call place name arguments =>
    rw [← symbols_record]
    unfold Assignment.handle
    cases h : (Assignment.record command name arguments state.symbols).1 <;> simp only [h] <;> rfl
  | _ => rfl

theorem handle_handlers (command : String) (depth : Nat) (path : Path) (node : Node) (state : WalkState σ) :
    let after := Walk.handle (handlers command) depth path node state
    after.1 = node.renameFile (expanded state.symbols) ∧ after.2.symbols = definedBy command state.symbols node := by
  cases node with
  | call place name arguments => exact ⟨rfl, symbols_assign command _ state⟩
  | inclusion place filename options =>
    have hHandle : Walk.handle (handlers command) depth path (.inclusion place filename options) state =
        ((Node.inclusion place filename options).substitute state.symbols |>.1,
          ((Node.inclusion place filename options).substitute state.symbols).2.elim state (Walk.report · state)) := rfl
    rw [hHandle]
    refine ⟨substitute_fst state.symbols _, ?_⟩
    cases ((Node.inclusion place filename options).substitute state.symbols).2 <;> rfl
  | block _ form => cases form <;> exact ⟨rfl, rfl⟩
  | clause _ form => cases form <;> exact ⟨rfl, rfl⟩
  | _ => exact ⟨rfl, rfl⟩

theorem shapeKeeping_handlers (command : String) : (handlers (σ := σ) command).ShapeKeeping := by
  have hNone : (Handlers.none : Handlers σ).ShapeKeeping := fun _ _ h => by cases h
  have hDefine (visit : Visit) (node : Node) (state : WalkState σ) :
      ((define command visit node).run state).1.SameShape node := .refl node
  refine (hNone.register _ hDefine).register _ ?_
  intro visit node state
  rw [show ((substitute visit node).run state).1 = (node.substitute state.symbols).1 from rfl, substitute_fst]
  exact Node.renameFile_sameShape _ node

/-! ## The whole walk -/

theorem symbols_foldl_handle (command : String) (entries : List (Path × Node)) (state : WalkState σ) :
    (entries.foldl (fun state entry => (Walk.handle (handlers command) 0 entry.1 entry.2 state).2) state).symbols =
      state.symbols.defineAll (entries.filterMap (·.2.assignment? command)) := by
  induction entries generalizing state with
  | nil => rfl
  | cons entry rest ih =>
    rw [List.foldl_cons, ih, (handle_handlers command 0 entry.1 entry.2 state).2]
    cases h : entry.2.assignment? command with
    | none => rw [definedBy_none h, List.filterMap_cons, h]
    | some definition =>
      rw [definedBy_some h, List.filterMap_cons, h]
      rfl

/-- Nodes of unknown kind assign nothing, so that it makes no difference whether they are passed over. -/
theorem definitionsBefore_eq (command : String) {root node : Node} {path : Path} (h : root.At path node)
    (hKind : node.kind?.isSome) : definitionsBefore command root path =
      (root.walkOrder.takeWhile (·.1 ≠ path)).filterMap (·.2.assignment? command) := by
  obtain ⟨done, rest, hOrder⟩ := List.append_of_mem (Node.mem_walkOrder.mpr h)
  have hNe := Node.ne_of_walkOrder hOrder
  have hReached : root.reached = done.filter (fun entry => entry.2.kind?.isSome) ++
      (path, node) :: rest.filter fun entry => entry.2.kind?.isSome := by
    rw [Node.reached, hOrder, List.filter_append, List.filter_cons_of_pos (by exact hKind)]
  rw [definitionsBefore, hReached, hOrder, Node.takeWhile_ne hNe,
    Node.takeWhile_ne fun other hOther => hNe other (List.mem_filter.mp hOther).1, List.filterMap_filter]
  refine List.filterMap_congr fun other _ => ?_
  split
  · rfl
  · rename_i hUnknown
    rw [eq_comm, Option.eq_none_iff_forall_ne_some]
    rintro ⟨key, value⟩ hAssignment
    obtain ⟨_, _, _, _, hCall, -⟩ := assignment?_eq_some.mp hAssignment
    rw [hCall] at hUnknown
    exact hUnknown rfl

/-- The filename that an inclusion gets is that of the table in effect where it stands. -/
theorem fixed_handle_eq (command : String) (root : Node) (state : WalkState σ) {path : Path} {node : Node}
    (h : root.At path node) :
    let edit := Walk.handle (handlers command) 0
    Node.fixed edit (root.stateBefore edit state) path node =
      Node.fileEdit (fun path => expanded (tableAt command state.symbols root path)) path node := by
  intro edit
  funext _
  rw [Node.fixed, (handle_handlers command 0 path node _).1, Node.fileEdit]
  cases node with
  | inclusion =>
    rw [Node.stateBefore, symbols_foldl_handle, tableAt, definitionsBefore_eq command h rfl]
  | _ => rfl

/-- Resolution leaves a tree as it is, but for the filenames of the inclusions that it reaches. -/
theorem tree_resolve (command : String) (strict : Bool) (seed : SymbolTable) (root : Node) :
    (resolve command strict seed root).tree =
      root.renameInclusions fun path => expanded (tableAt command seed root path) := by
  let start : WalkState Unit := ⟨seed, .start strict, ()⟩
  have hRun := Walk.run_eq (shapeKeeping_handlers command) (nonGrowing_handlers command) root start
  calc (resolve command strict seed root).tree
      = (root.editAll (Walk.handle (handlers command) 0) start).1 := congrArg Prod.fst hRun
    _ = (root.editAll (Node.fileEdit fun path => expanded (tableAt command seed root path)) ()).1 := by
        rw [Node.editAll_fst]
        refine congrArg Prod.fst (Node.editAll_congr (fun path node h => ?_) ())
        exact congrFun (fixed_handle_eq command root start h)
    _ = root.renameInclusions fun path => expanded (tableAt command seed root path) := by
        rw [Node.editAll_fileEdit]

/-- The assignments of a tree, in the order in which a walk comes to them. -/
def definitions (command : String) (root : Node) : List (String × String) :=
  root.walkOrder.filterMap (·.2.assignment? command)

theorem symbols_resolve (command : String) (strict : Bool) (seed : SymbolTable) (root : Node) :
    (resolve command strict seed root).symbols = seed.defineAll (definitions command root) := by
  let start : WalkState Unit := ⟨seed, .start strict, ()⟩
  have hRun := Walk.run_eq (shapeKeeping_handlers command) (nonGrowing_handlers command) root start
  calc (resolve command strict seed root).symbols
      = (root.editAll (Walk.handle (handlers command) 0) start).2.symbols :=
        congrArg (fun after => after.2.symbols) hRun
    _ = seed.defineAll (definitions command root) := by
        rw [Node.editAll_snd, symbols_foldl_handle, definitions]

/-- Trees that have at every position nodes of the same kind that assign the same make the same definitions. -/
theorem definitions_congr {command : String} {root root' : Node} {f : Path × Node → Node}
    (hOrder : root'.walkOrder = root.walkOrder.map fun entry => (entry.1, f entry))
    (hAssignment : ∀ entry, (f entry).assignment? command = entry.2.assignment? command) :
    definitions command root' = definitions command root := by
  rw [definitions, hOrder, List.filterMap_map]
  exact List.filterMap_congr fun entry _ => hAssignment entry

theorem tableAt_congr {command : String} {root root' : Node} {f : Path × Node → Node}
    (hOrder : root'.walkOrder = root.walkOrder.map fun entry => (entry.1, f entry))
    (hKind : ∀ entry, (f entry).kind? = entry.2.kind?)
    (hAssignment : ∀ entry, (f entry).assignment? command = entry.2.assignment? command) (seed : SymbolTable) :
    tableAt command seed root' = tableAt command seed root := by
  have hReached : root'.reached = root.reached.map fun entry => (entry.1, f entry) := by
    rw [Node.reached, hOrder, List.filter_map, Node.reached]
    exact congrArg _ (List.filter_congr fun entry _ => congrArg Option.isSome (hKind entry))
  funext path
  rw [tableAt, definitionsBefore, hReached, List.takeWhile_map, List.filterMap_map]
  exact congrArg seed.defineAll (List.filterMap_congr fun entry _ => hAssignment entry)

/-- What a walk reaches are the visible nodes, in the order of their positions. Resolution changes the filename of
each inclusion among them as the table in effect there says, which has for each name the last value that was assigned
to it before, or that of the seed; it changes nothing else. -/
theorem resolve_is_one_pass (command : String) (strict : Bool) (seed : SymbolTable) (root : Node) :
    ((∀ path node, (path, node) ∈ root.reached ↔ root.At path node ∧ root.Visible path) ∧
      root.reached.Pairwise fun a b => root.Precedes a.1 b.1) ∧
    (resolve command strict seed root).tree =
      root.renameInclusions (fun path => expanded (tableAt command seed root path)) ∧
    ∀ path name, (tableAt command seed root path).lookup? name =
      ((definitionsBefore command root path).reverse.lookup name).or (seed.lookup? name) := by
  refine ⟨⟨fun path node => ?_, root.pairwise_walkOrder.filter _⟩, tree_resolve command strict seed root,
    fun path name => SymbolTable.lookup?_defineAll seed _ name⟩
  rw [Node.reached, List.mem_filter, Node.mem_walkOrder]
  constructor
  · rintro ⟨hAt, hKind⟩
    exact ⟨hAt, hAt.visible hKind⟩
  · rintro ⟨hAt, hVisible⟩
    exact ⟨hAt, hVisible path node (List.prefix_refl path) hAt⟩

end Resolve
end Listfile
