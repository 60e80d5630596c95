import Listfile.Proofs.Walk.Fold
import Listfile.Walk.Collect
/-! # Which handlers a walk calls

The calls of a walk are recorded by handlers that note what they are given before they go on as before. If no
handler changes its node, the record has one entry for each position at which a handler is registered for the kind
of the node and no node of unknown kind stands on the way, and the entries are in the order of the positions.
-/
namespace Listfile
set_option autoImplicit false

variable {σ : Type}

/-- A call of a handler: the key under which it is registered, and what it is given. -/
structure Dispatch where
  key : HandlerKey
  visit : Visit
  node : Node

/-- The state of a walk that keeps a record, without the record. -/
def WalkState.forget (state : WalkState (σ × List Dispatch)) : WalkState σ :=
  ⟨state.symbols, state.diagnostics, state.log.1⟩

def WalkState.recording (state : WalkState σ) (record : List Dispatch) : WalkState (σ × List Dispatch) :=
  ⟨state.symbols, state.diagnostics, state.log, record⟩

/-- The handlers of a table, each of which notes the call in the record and then does what it does. -/
def Handlers.recorded (handlers : Handlers σ) : Handlers (σ × List Dispatch) := fun key =>
  (handlers key).map fun handler visit node => fun state =>
    let (node', after) := (handler visit node).run state.forget
    (node', after.recording (state.log.2 ++ [⟨key, visit, node⟩]))

def Handlers.NodeKeeping (handlers : Handlers σ) : Prop :=
  ∀ key handler, handlers key = some handler → ∀ visit node state, ((handler visit node).run state).1 = node

namespace Handlers.NodeKeeping

variable {handlers : Handlers σ} (h : handlers.NodeKeeping)
include h

theorem shapeKeeping : handlers.ShapeKeeping := by
  intro key handler hHandler visit node state
  rw [h key handler hHandler visit node state]
  exact .refl node

theorem nonGrowing : handlers.NonGrowing := by
  intro key handler hHandler visit node state
  exact Nat.le_of_eq (congrArg Node.size (h key handler hHandler visit node state))

theorem recorded : handlers.recorded.NodeKeeping := by
  intro key handler hHandler visit node state
  obtain ⟨original, hOriginal, rfl⟩ := Option.map_eq_some_iff.mp hHandler
  exact h key original hOriginal visit node state.forget

theorem register (key : HandlerKey) {handler : Handler σ}
    (hNew : ∀ visit node state, ((handler visit node).run state).1 = node) :
    (handlers.register key handler).NodeKeeping := forall_register h key hNew

theorem handle_fst (depth : Nat) (path : Path) (node : Node) (state : WalkState σ) :
    (Walk.handle handlers depth path node state).1 = node := by
  unfold Walk.handle
  split
  · rfl
  · split
    · rfl
    · exact h _ _ ‹_› _ _ _

end Handlers.NodeKeeping

namespace Node

theorem replaceAt_self {root node : Node} {path : Path} (h : root.At path node) : root.replaceAt path node = root := by
  induction h with
  | here node => rfl
  | step hStored _ ih =>
    have hGet := mem_stored.mp hStored
    rw [replaceAt, hGet]
    simp only
    rw [ih, replaceStep_get? hGet]

/-- Edits that put back what they find leave the tree as it is. -/
theorem editAll_of_keeping {τ : Type} {edit : Path → Node → τ → Node × τ}
    (h : ∀ path node state, (edit path node state).1 = node) (root : Node) (state : τ) :
    root.editAll edit state =
      (root, root.walkOrder.foldl (fun state entry => (edit entry.1 entry.2 state).2) state) := by
  have hAll (entries : List (Path × Node)) (hAt : ∀ entry ∈ entries, root.At entry.1 entry.2) (state : τ) :
      entries.foldl (editAt edit) (root, state) =
        (root, entries.foldl (fun state entry => (edit entry.1 entry.2 state).2) state) := by
    induction entries generalizing state with
    | nil => rfl
    | cons entry rest ih =>
      obtain ⟨hFirst, hRest⟩ := List.forall_mem_cons.mp hAt
      simp only [List.foldl_cons, editAt, h, replaceAt_self hFirst]
      exact ih hRest _
  exact hAll _ (fun _ hEntry => mem_walkOrder.mp hEntry) state

/-- Whether no node of unknown kind stands at a position or above it. -/
def Visible (root : Node) (path : Path) : Prop :=
  ∀ above node, above <+: path → root.At above node → node.kind?.isSome

theorem At.visible {root node : Node} {path : Path} (h : root.At path node) (hKind : node.kind?.isSome) :
    root.Visible path := by
  induction h with
  | here node =>
    intro above other hPrefix hAt
    rw [List.prefix_nil.mp hPrefix] at hAt
    cases hAt
    exact hKind
  | step hStored _ ih =>
    intro above other hPrefix hAt
    cases hAt with
    | here => exact kind?_of_mem_stored hStored
    | step hStored' hAt =>
      obtain ⟨rfl, hBelow⟩ := List.cons_prefix_cons.mp hPrefix
      have hGet := mem_stored.mp hStored
      rw [mem_stored.mp hStored', Option.some.injEq] at hGet
      exact ih hKind _ other hBelow (hGet ▸ hAt)

end Node

namespace Walk

theorem nodeKeeping_noting {α : Type} (describe : Visit → Node → α) (keys : List HandlerKey) :
    (noting describe keys).NodeKeeping := by
  induction keys with
  | nil => exact fun _ _ h => by cases h
  | cons key keys ih => exact ih.register key fun _ _ _ => rfl

/-- The call at a position of a tree, if a handler is registered for the kind of the node. -/
def dispatch? (handlers : Handlers σ) (entry : Path × Node) : Option Dispatch :=
  match entry.2.kind? with
  | none => none
  | some kind =>
    if (handlers kind.schema.handler).isSome then some ⟨kind.schema.handler, ⟨kind, entry.1.length⟩, entry.2⟩
    else none

theorem dispatch?_eq_some {handlers : Handlers σ} {entry : Path × Node} {call : Dispatch} :
    dispatch? handlers entry = some call ↔ ∃ kind, entry.2.kind? = some kind ∧
      (handlers kind.schema.handler).isSome ∧ call = ⟨kind.schema.handler, ⟨kind, entry.1.length⟩, entry.2⟩ := by
  unfold dispatch?
  cases entry.2.kind? with
  | none => simp
  | some kind =>
    simp only [Option.ite_none_right_eq_some, Option.some.injEq, exists_eq_left']
    exact and_congr_right fun _ => eq_comm

variable (handlers : Handlers σ)

theorem forget_handle (depth : Nat) (path : Path) (node : Node) (state : WalkState (σ × List Dispatch)) :
    (handle handlers.recorded depth path node state).2.forget =
      (handle handlers depth path node state.forget).2 := by
  unfold handle Handlers.recorded
  cases node.kind? with
  | none => rfl
  | some kind =>
    simp only
    cases handlers kind.schema.handler <;> rfl

theorem record_handle (path : Path) (node : Node) (state : WalkState (σ × List Dispatch)) :
    (handle handlers.recorded 0 path node state).2.log.2 =
      state.log.2 ++ (dispatch? handlers (path, node)).toList := by
  unfold handle Handlers.recorded dispatch?
  cases node.kind? with
  | none => exact (List.append_nil _).symm
  | some kind =>
    simp only [Nat.zero_add]
    cases handlers kind.schema.handler with
    | none => exact (List.append_nil _).symm
    | some handler => rfl

theorem forget_foldl_handle (entries : List (Path × Node)) (state : WalkState (σ × List Dispatch)) :
    (entries.foldl (fun state entry => (handle handlers.recorded 0 entry.1 entry.2 state).2) state).forget =
      entries.foldl (fun state entry => (handle handlers 0 entry.1 entry.2 state).2) state.forget := by
  induction entries generalizing state with
  | nil => rfl
  | cons entry rest ih => rw [List.foldl_cons, ih, forget_handle, List.foldl_cons]

theorem record_foldl_handle (entries : List (Path × Node)) (state : WalkState (σ × List Dispatch)) :
    (entries.foldl (fun state entry => (handle handlers.recorded 0 entry.1 entry.2 state).2) state).log.2 =
      state.log.2 ++ entries.filterMap (dispatch? handlers) := by
  induction entries generalizing state with
  | nil => exact (List.append_nil _).symm
  | cons entry rest ih =>
    rw [List.foldl_cons, ih, record_handle, List.append_assoc]
    cases h : dispatch? handlers (entry.1, entry.2) with
    | none => rw [List.filterMap_cons_none h]; rfl
    | some call => rw [List.filterMap_cons_some h]; rfl

def dispatched (root : Node) : List Path :=
  (root.walkOrder.filter fun entry => (dispatch? handlers entry).isSome).map Prod.fst

variable {handlers}

theorem mem_dispatched {root : Node} {path : Path} :
    path ∈ dispatched handlers root ↔ ∃ node kind, root.At path node ∧ root.Visible path ∧
      node.kind? = some kind ∧ (handlers kind.schema.handler).isSome := by
  simp only [dispatched, List.mem_map, List.mem_filter]
  constructor
  · rintro ⟨⟨path, node⟩, ⟨hMem, hCall⟩, rfl⟩
    obtain ⟨call, hCall⟩ := Option.isSome_iff_exists.mp hCall
    obtain ⟨kind, hKind, hHandler, -⟩ := dispatch?_eq_some.mp hCall
    have hAt := Node.mem_walkOrder.mp hMem
    exact ⟨node, kind, hAt, hAt.visible (by rw [hKind]; rfl), hKind, hHandler⟩
  · rintro ⟨node, kind, hAt, -, hKind, hHandler⟩
    have hCall : dispatch? handlers (path, node) = some ⟨kind.schema.handler, ⟨kind, path.length⟩, node⟩ :=
      dispatch?_eq_some.mpr ⟨kind, hKind, hHandler, rfl⟩
    exact ⟨(path, node), ⟨Node.mem_walkOrder.mpr hAt, by rw [hCall]; rfl⟩, rfl⟩

/-- The positions at which a walk calls a handler: each one once, and in order. -/
structure Dispatches (handlers : Handlers σ) (root : Node) (positions : List Path) : Prop where
  mem_iff : ∀ path, path ∈ positions ↔ ∃ node kind, root.At path node ∧ root.Visible path ∧
    node.kind? = some kind ∧ (handlers kind.schema.handler).isSome
  nodup : positions.Nodup
  lt_iff : ∀ (i j : Nat) (hi : i < positions.length) (hj : j < positions.length),
    i < j ↔ root.Precedes positions[i] positions[j]

/-- The call of the handler for the kind of the node at a position, with its distance from the root. -/
def CalledAt (root : Node) (path : Path) (call : Dispatch) : Prop :=
  ∃ kind, root.At path call.node ∧ call.node.kind? = some kind ∧ call.key = kind.schema.handler ∧
    call.visit = ⟨kind, path.length⟩

theorem dispatches_dispatched (handlers : Handlers σ) (root : Node) :
    Dispatches handlers root (dispatched handlers root) := by
  have hPairwise : (dispatched handlers root).Pairwise root.Precedes :=
    List.pairwise_map.mpr (root.pairwise_walkOrder.filter _)
  have hBefore := List.pairwise_iff_getElem.mp hPairwise
  refine ⟨fun _ => mem_dispatched, hPairwise.imp fun h hEq => ?_, fun i j hi hj => ⟨hBefore i j hi hj, fun h => ?_⟩⟩
  · rw [hEq] at h
    exact Node.Precedes.irrefl root _ h
  · rcases Nat.lt_trichotomy i j with hLt | rfl | hLt
    · exact hLt
    · exact absurd h (Node.Precedes.irrefl root _)
    · exact absurd h (hBefore j i hj hi hLt).asymm

theorem forall₂_filterMap {root : Node} {entries : List (Path × Node)}
    (hAt : ∀ entry ∈ entries, root.At entry.1 entry.2) :
    List.Forall₂ (CalledAt root)
      ((entries.filter fun entry => (dispatch? handlers entry).isSome).map Prod.fst)
      (entries.filterMap (dispatch? handlers)) := by
  induction entries with
  | nil => exact .nil
  | cons entry rest ih =>
    obtain ⟨hFirst, hRest⟩ := List.forall_mem_cons.mp hAt
    cases h : dispatch? handlers entry with
    | none =>
      rw [List.filterMap_cons_none h, List.filter_cons_of_neg (by simp [h])]
      exact ih hRest
    | some call =>
      rw [List.filterMap_cons_some h, List.filter_cons_of_pos (by simp [h])]
      refine .cons ?_ (ih hRest)
      obtain ⟨kind, hKind, -, rfl⟩ := dispatch?_eq_some.mp h
      exact ⟨kind, hFirst, hKind, rfl, rfl⟩

theorem handler_injective {kind kind' : Kind} (h : kind.schema.handler = kind'.schema.handler) : kind = kind' := by
  cases kind <;> cases kind' <;> first | rfl | cases h

/-- A walk calls the handler of every visible position once, in the order of the positions, and leaves the tree as
it was; the record changes nothing else. -/
theorem dispatches_positions_in_order (handlers : Handlers σ) (hKeep : handlers.NodeKeeping) (root : Node)
    (state : WalkState σ) :
    let recorded := run handlers.recorded hKeep.recorded.nonGrowing root (state.recording [])
    run handlers hKeep.nonGrowing root state = (root, recorded.2.forget) ∧ recorded.1 = root ∧
    (∀ kind kind' : Kind, kind.schema.handler = kind'.schema.handler → kind = kind') ∧
    ∃ positions : List Path, Dispatches handlers root positions ∧
      List.Forall₂ (CalledAt root) positions recorded.2.log.2 := by
  intro recorded
  have hRecorded : recorded = (root, root.walkOrder.foldl
      (fun state entry => (handle handlers.recorded 0 entry.1 entry.2 state).2) (state.recording [])) := by
    rw [← Node.editAll_of_keeping (hKeep.recorded.handle_fst 0)]
    exact run_eq hKeep.recorded.shapeKeeping _ root _
  have hPlain := run_eq hKeep.shapeKeeping hKeep.nonGrowing root state
  rw [Node.editAll_of_keeping (hKeep.handle_fst 0)] at hPlain
  have hRecord : recorded.2.log.2 = root.walkOrder.filterMap (dispatch? handlers) := by
    rw [hRecorded, record_foldl_handle]
    rfl
  refine ⟨?_, by rw [hRecorded], fun _ _ => handler_injective, dispatched handlers root,
    dispatches_dispatched handlers root, ?_⟩
  · rw [hPlain, hRecorded, forget_foldl_handle]
    rfl
  · rw [hRecord]
    exact forall₂_filterMap fun _ hEntry => Node.mem_walkOrder.mp hEntry

/-- Notes taken at every node of a conditional whose else arm holds a node of unknown kind. -/
theorem dispatches_positions_of_conditional :
    let place : Location := default
    let header : Node := .call place "if" [.word place .unquoted "A"]
    let arm (form : ClauseForm) (body : List Node) : Node := .clause place form header body
    let root : Node := .conditional place (arm .ifClause []) [arm .elseifClause []]
      (some (arm .elseClause [.unrecognized place "Comment" .null])) header
    let handlers : Handlers (Array Nat) := noting (fun visit _ => visit.depth) HandlerKey.all
    let start : WalkState (Array Nat) := ⟨.empty, .start false, #[]⟩
    ∃ (hKeep : handlers.NodeKeeping) (positions : List Path), Dispatches handlers root positions ∧
      List.Forall₂ (CalledAt root) positions
        (run handlers.recorded hKeep.recorded.nonGrowing root (start.recording [])).2.log.2 := by
  intro place header arm root handlers start
  have hKeep : handlers.NodeKeeping := nodeKeeping_noting _ _
  obtain ⟨-, -, -, positions, hPositions, hCalls⟩ := dispatches_positions_in_order handlers hKeep root start
  exact ⟨hKeep, positions, hPositions, hCalls⟩

end Walk
end Listfile
