import Listfile.Proofs.Walk.Dispatch
/-! # How a walk hands its state on

The symbol table that a handler is given is the one that the handler called before it left, and that of the start for
the first one. This is said of handlers that note both tables, and that may change what they like of a node and of what
is below it, as long as the positions and the kinds of the nodes stay.
-/
namespace Listfile
set_option autoImplicit false

variable {σ : Type}

/-- A call of a handler, by the node that it is for and the symbol tables before and after it. -/
structure TableUse where
  visit : Visit
  seen : SymbolTable
  left : SymbolTable

def WalkState.unwatched (state : WalkState (σ × List TableUse)) : WalkState σ :=
  ⟨state.symbols, state.diagnostics, state.log.1⟩

def WalkState.watching (state : WalkState σ) (uses : List TableUse) : WalkState (σ × List TableUse) :=
  ⟨state.symbols, state.diagnostics, state.log, uses⟩

namespace Handlers

/-- The handlers of a table, each of which also notes the symbol tables before and after it. -/
def watched (handlers : Handlers σ) : Handlers (σ × List TableUse) := fun key =>
  (handlers key).map fun handler visit node => fun state =>
    let (node', after) := (handler visit node).run state.unwatched
    (node', after.watching (state.log.2 ++ [⟨visit, state.symbols, after.symbols⟩]))

theorem SkeletonKeeping.watched {handlers : Handlers σ} (h : handlers.SkeletonKeeping) :
    handlers.watched.SkeletonKeeping := by
  intro key handler hHandler visit node state
  obtain ⟨original, hOriginal, rfl⟩ := Option.map_eq_some_iff.mp hHandler
  exact h key original hOriginal visit node state.unwatched

theorem SkeletonKeeping.register {handlers : Handlers σ} (h : handlers.SkeletonKeeping) (key : HandlerKey)
    {handler : Handler σ} (hNew : ∀ visit node state, ((handler visit node).run state).1.SameSkeleton node) :
    (handlers.register key handler).SkeletonKeeping := forall_register h key hNew

end Handlers

namespace Walk

/-- Calls of which the first one sees the table of the start, and every other one that which the call before it left. -/
inductive Threads (seed : SymbolTable) : List TableUse → SymbolTable → Prop
  | start : Threads seed [] seed
  | next {uses : List TableUse} {last : SymbolTable} (visit : Visit) (left : SymbolTable) :
    Threads seed uses last → Threads seed (uses ++ [⟨visit, last, left⟩]) left

variable (handlers : Handlers σ)

theorem handle_watched (depth : Nat) (path : Path) (node : Node) (state : WalkState (σ × List TableUse)) :
    let after := handle handlers.watched depth path node state
    (after.1, after.2.unwatched) = handle handlers depth path node state.unwatched := by
  unfold handle Handlers.watched
  cases node.kind? with
  | none => rfl
  | some kind =>
    simp only
    cases handlers kind.schema.handler <;> rfl

theorem foldl_watched (paths : List Path) (tree : Node) (state : WalkState (σ × List TableUse)) :
    let after := paths.foldl (Node.editCurrent (handle handlers.watched 0)) (tree, state)
    (after.1, after.2.unwatched) =
      paths.foldl (Node.editCurrent (handle handlers 0)) (tree, state.unwatched) := by
  induction paths generalizing tree state with
  | nil => rfl
  | cons path rest ih =>
    have hFirst : (fun after : Node × WalkState (σ × List TableUse) => (after.1, after.2.unwatched))
          (Node.editCurrent (handle handlers.watched 0) (tree, state) path) =
        Node.editCurrent (handle handlers 0) (tree, state.unwatched) path := by
      unfold Node.editCurrent
      cases tree.nodeAt? path with
      | none => rfl
      | some node => simp only [← handle_watched]
    rw [List.foldl_cons, List.foldl_cons, ← hFirst]
    exact ih _ _

/-- A handler notes its call, and sees the table that the calls before it have left. -/
theorem threads_handle {seed : SymbolTable} (path : Path) (node : Node) {state : WalkState (σ × List TableUse)}
    (h : Threads seed state.log.2 state.symbols) :
    let after := (handle handlers.watched 0 path node state).2
    Threads seed after.log.2 after.symbols ∧ after.log.2.map (·.visit) =
      state.log.2.map (·.visit) ++ (dispatch? handlers (path, node)).toList.map (·.visit) := by
  unfold handle Handlers.watched dispatch?
  cases node.kind? with
  | none => exact ⟨h, (List.append_nil _).symm⟩
  | some kind =>
    simp only [Nat.zero_add]
    cases handlers kind.schema.handler with
    | none => exact ⟨h, (List.append_nil _).symm⟩
    | some handler => exact ⟨h.next _ _, List.map_append⟩

theorem visit_dispatch? {path : Path} {node node' : Node} (h : node.kind? = node'.kind?) :
    (dispatch? handlers (path, node)).toList.map (·.visit) =
      (dispatch? handlers (path, node')).toList.map (·.visit) := by
  unfold dispatch?
  simp only [h]
  cases node'.kind? with
  | none => rfl
  | some kind =>
    simp only
    split <;> rfl

variable {handlers}

theorem threads_foldl (hKeep : handlers.SkeletonKeeping) {root : Node} {seed : SymbolTable}
    (entries : List (Path × Node)) (hAt : ∀ entry ∈ entries, root.At entry.1 entry.2) {tree : Node}
    (hTree : tree.SameSkeleton root) {state : WalkState (σ × List TableUse)}
    (h : Threads seed state.log.2 state.symbols) :
    let after := ((entries.map Prod.fst).foldl (Node.editCurrent (handle handlers.watched 0)) (tree, state)).2
    Threads seed after.log.2 after.symbols ∧ after.log.2.map (·.visit) =
      state.log.2.map (·.visit) ++ (entries.filterMap (dispatch? handlers)).map (·.visit) := by
  -- The tree keeps its skeleton, so that at every position there is a node, of the kind that was there at the start.
  induction entries generalizing tree state with
  | nil => exact ⟨h, (List.append_nil _).symm⟩
  | cons entry rest ih =>
    obtain ⟨path, original⟩ := entry
    obtain ⟨hFirst, hRest⟩ := List.forall_mem_cons.mp hAt
    obtain ⟨node, hNode, hKind⟩ := hTree.symm.exists_at hFirst
    have hCurrent : Node.editCurrent (handle handlers.watched 0) (tree, state) path =
        (tree.replaceAt path (handle handlers.watched 0 path node state).1,
          (handle handlers.watched 0 path node state).2) := by
      simp only [Node.editCurrent, Node.nodeAt?_eq_some.mpr hNode]
    have hSkeleton := Node.sameSkeleton_replaceAt hNode (handle_sameSkeleton hKeep.watched 0 path node state)
    obtain ⟨hThreads, hVisits⟩ := threads_handle handlers path node h
    obtain ⟨hThreadsRest, hVisitsRest⟩ := ih hRest (hSkeleton.trans hTree) hThreads
    rw [List.map_cons, List.foldl_cons, hCurrent]
    refine ⟨hThreadsRest, hVisitsRest.trans ?_⟩
    rw [hVisits, visit_dispatch? handlers hKind, List.append_assoc, ← List.map_append]
    cases hCall : dispatch? handlers (path, original) with
    | none => rw [List.filterMap_cons_none hCall]; rfl
    | some call => rw [List.filterMap_cons_some hCall]; rfl

/-- A walk is a left fold over the positions of the tree. At each of them there is always a node of the kind that was
there at the start; its handler gets it as it stands by then, and the table that the handler called before it left. -/
theorem run_threads_state {handlers : Handlers σ} (hKeep : handlers.SkeletonKeeping) (root : Node)
    (seed : SymbolTable) (strict : Bool) (log : σ) :
    let start : WalkState σ := ⟨seed, .start strict, log⟩
    let fold (paths : List Path) := paths.foldl (Node.editCurrent (handle handlers 0)) (root, start)
    let watched := run handlers.watched hKeep.watched.nonGrowing root (start.watching [])
    run handlers hKeep.nonGrowing root start = fold root.positions ∧
    (∀ paths path node, root.At path node →
      ∃ current, (fold paths).1.At path current ∧ current.kind? = node.kind?) ∧
    (watched.1, watched.2.unwatched) = fold root.positions ∧
    Threads seed watched.2.log.2 watched.2.symbols ∧
    watched.2.log.2.map (·.visit) = (root.walkOrder.filterMap (dispatch? handlers)).map (·.visit) := by
  intro start fold watched
  have hRun := run_eq_editPositions hKeep root start
  have hWatched : watched = root.editPositions (handle handlers.watched 0) (start.watching []) :=
    run_eq_editPositions hKeep.watched root (start.watching [])
  have hStart : Threads seed (start.watching []).log.2 (start.watching []).symbols := .start
  obtain ⟨hThreads, hVisits⟩ := threads_foldl hKeep root.walkOrder (fun _ hEntry => Node.mem_walkOrder.mp hEntry)
    (.refl root) hStart
  refine ⟨hRun, ?_, ?_, ?_, ?_⟩
  · intro paths path node hAt
    have hSkeleton := Node.foldl_sameSkeleton (handle_sameSkeleton hKeep 0) paths root start
    exact hSkeleton.symm.exists_at hAt
  · rw [hWatched]
    exact foldl_watched handlers root.positions root (start.watching [])
  · rw [hWatched]
    exact hThreads
  · rw [hWatched]
    exact hVisits

theorem sameShape_setLabel (label : String) (node : Node) :
    (node.setLabel label).SameShape node := by
  cases node <;> exact ⟨rfl, fun slot => by cases slot <;> rfl, fun slot => by cases slot <;> rfl⟩

/-- Handlers for calls and words that note the name before theirs, and of which the first ones change the words of the
others. A node of unknown kind stands between the calls. -/
theorem run_threads_state_of_renaming :
    let place : Location := default
    let root : Node := .toplevel place
      [.call place "a" [.word place .unquoted "b"], .unrecognized place "Comment" .null, .call place "c" []]
    let follow : Handler (List (Option String)) := fun _ node state =>
      (node, { state with
        symbols := state.symbols.define "last" (node.label?.getD "")
        log := state.log ++ [state.symbols.lookup? "last"] })
    let rewrite : Handler (List (Option String)) := fun visit node state =>
      match node.get? ⟨.arguments, 0⟩ with
      | none => follow visit node state
      | some word => follow visit (node.replaceStep ⟨.arguments, 0⟩ (word.setLabel "d")) state
    let handlers := (Handlers.none.register .word follow).register .call rewrite
    ∃ hKeep : handlers.SkeletonKeeping,
      let after := run handlers hKeep.nonGrowing root ⟨.empty, .start true, []⟩
      after.2.log = [none, some "a", some "d"] ∧
      after.2.diagnostics.records = [.unrecognizedNode "Comment" place.span] ∧
      Threads .empty (run handlers.watched hKeep.watched.nonGrowing root ⟨.empty, .start true, [], []⟩).2.log.2
        (run handlers.watched hKeep.watched.nonGrowing root ⟨.empty, .start true, [], []⟩).2.symbols := by
  intro place root follow rewrite handlers
  have hKeep : handlers.SkeletonKeeping := by
    have hNone : (Handlers.none : Handlers (List (Option String))).SkeletonKeeping := fun _ _ h => by cases h
    have hFollow (visit : Visit) (node : Node) (state : WalkState (List (Option String))) :
        ((follow visit node).run state).1.SameSkeleton node := .refl node
    refine (hNone.register _ hFollow).register _ ?_
    intro visit node state
    simp only [rewrite]
    split
    · exact .refl node
    · rename_i word hWord
      exact Node.sameSkeleton_replaceStep hWord (sameShape_setLabel "d" word).sameSkeleton
  obtain ⟨hRun, -, -, hThreads, -⟩ := run_threads_state hKeep root .empty true []
  refine ⟨hKeep, ?_, ?_, hThreads⟩
  · rw [hRun]
    decide +kernel
  · rw [hRun]
    decide +kernel

end Walk
end Listfile
