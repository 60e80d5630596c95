import Mathlib.Data.List.Forall2
import Listfile.Proofs.Walk.Dispatch
/-! # Two walks side by side

Two walks go the same way if their handlers do the same, up to a relation between nodes and one between states. A walk
that ends is then followed by one that ends, with what was related at the start still related. Handlers may do to their
nodes what they like here, so that a walk need not end at all; where it does, there is one result.
-/
namespace Listfile
set_option autoImplicit false

variable {σ τ : Type} {nodes : Node → Node → Prop} {states : WalkState σ → WalkState τ → Prop}

/-- A relation between nodes of the same kind that have related children in every slot. -/
structure Node.Congruence (nodes : Node → Node → Prop) : Prop where
  kind? : ∀ {a b}, nodes a b → a.kind? = b.kind?
  child? : ∀ {a b}, nodes a b → ∀ slot, Option.Rel nodes (a.child? slot) (b.child? slot)
  children : ∀ {a b}, nodes a b → ∀ slot, List.Forall₂ nodes (a.children slot) (b.children slot)
  setChild : ∀ {a b c d}, nodes a b → nodes c d → ∀ slot, nodes (a.setChild slot c) (b.setChild slot d)
  setChildren : ∀ {a b cs ds}, nodes a b → List.Forall₂ nodes cs ds → ∀ slot,
    nodes (a.setChildren slot cs) (b.setChildren slot ds)

theorem Node.congruence_eq : Node.Congruence Eq := by
  constructor
  · rintro a _ rfl
    rfl
  · rintro a _ rfl slot
    cases a.child? slot with
    | none => exact .none
    | some child => exact .some rfl
  · rintro a _ rfl slot
    exact List.forall₂_same.mpr fun _ _ => rfl
  · rintro a _ c _ rfl rfl slot
    rfl
  · rintro a _ cs ds rfl hNodes slot
    rw [List.forall₂_eq_eq_eq] at hNodes
    rw [hNodes]

theorem Node.Congruence.flip {nodes : Node → Node → Prop} (h : Congruence nodes) : Congruence (flip nodes) := by
  constructor
  · exact fun hNodes => (h.kind? hNodes).symm
  · intro a b hNodes slot
    have hChild := h.child? hNodes slot
    cases hA : a.child? slot <;> cases hB : b.child? slot <;> rw [hA, hB] at hChild <;> cases hChild
    · exact .none
    · exact .some ‹_›
  · exact fun hNodes slot => (h.children hNodes slot).flip
  · exact fun hNodes hChild slot => h.setChild hNodes hChild slot
  · exact fun hNodes hChildren slot => h.setChildren hNodes hChildren.flip slot

/-- Whether two handlers, given related nodes and states, leave related nodes and states. -/
def Handler.Agree (nodes : Node → Node → Prop) (states : WalkState σ → WalkState τ → Prop) (handler : Handler σ)
    (handler' : Handler τ) : Prop :=
  ∀ visit a b s t, nodes a b → states s t →
    nodes ((handler visit a).run s).1 ((handler' visit b).run t).1 ∧
      states ((handler visit a).run s).2 ((handler' visit b).run t).2

/-- Handlers that agree under every key, for relations that the rest of a walk respects. -/
structure Handlers.Simulation (nodes : Node → Node → Prop) (states : WalkState σ → WalkState τ → Prop)
    (handlers : Handlers σ) (handlers' : Handlers τ) : Prop where
  congruence : Node.Congruence nodes
  report : ∀ {a b s t}, nodes a b → a.kind? = Option.none → states s t →
    states (Walk.report (.unrecognizedNode a.tag a.span) s) (Walk.report (.unrecognizedNode b.tag b.span) t)
  agree : ∀ key, Option.Rel (Handler.Agree nodes states) (handlers key) (handlers' key)

namespace Walk

variable {α β α' β' : Type}

/-! ## Parts of a walk -/

/-- If the first part ends, the second one does, and leaves a related result and a related state. -/
def Follows (states : WalkState σ → WalkState τ → Prop) (results : α → β → Prop) (part : WalkM σ α)
    (part' : WalkM τ β) : Prop :=
  ∀ s t, states s t → ∀ a s', part s = .ok a s' → ∃ b t', part' t = .ok b t' ∧ results a b ∧ states s' t'

theorem exists_of_bind {part : WalkM σ α} {next : α → WalkM σ β} {state state' : WalkState σ} {b : β}
    (h : (part >>= next) state = .ok b state') :
    ∃ a middle, part state = .ok a middle ∧ next a middle = .ok b state' := by
  simp only [Bind.bind, EStateM.bind] at h
  split at h
  · exact ⟨_, _, ‹_›, h⟩
  · cases h

theorem Follows.pure {results : α → β → Prop} {a : α} {b : β} (h : results a b) :
    Follows states results (Pure.pure a) (Pure.pure b) := by
  intro s t hStates _ _ hPure
  cases hPure
  exact ⟨b, t, rfl, h, hStates⟩

theorem Follows.bind {results : α → β → Prop} {results' : α' → β' → Prop} {part : WalkM σ α} {part' : WalkM τ β}
    {next : α → WalkM σ α'} {next' : β → WalkM τ β'} (h : Follows states results part part')
    (hNext : ∀ a b, results a b → Follows states results' (next a) (next' b)) :
    Follows states results' (part >>= next) (part' >>= next') := by
  intro s t hStates _ _ hBind
  obtain ⟨a, middle, hPart, hRest⟩ := exists_of_bind hBind
  obtain ⟨b, middle', hPart', hResults, hMiddle⟩ := h s t hStates a middle hPart
  obtain ⟨b', t', hRest', hLast⟩ := hNext a b hResults middle middle' hMiddle _ _ hRest
  exact ⟨b', t', (bind_ok hPart').trans hRest', hLast⟩

theorem Follows.foldlM {results : α → β → Prop} {ι : Type} {step : α → ι → WalkM σ α} {step' : β → ι → WalkM τ β}
    (items : List ι) (hStep : ∀ a b i, results a b → Follows states results (step a i) (step' b i)) {a : α} {b : β}
    (h : results a b) : Follows states results (items.foldlM step a) (items.foldlM step' b) := by
  induction items generalizing a b with
  | nil => exact .pure h
  | cons i rest ih =>
    rw [List.foldlM_cons, List.foldlM_cons]
    exact (hStep a b i h).bind fun _ _ hNext => ih hNext

theorem Follows.mapM {items : α → β → Prop} {results : α' → β' → Prop} {visit : α → WalkM σ α'}
    {visit' : β → WalkM τ β'} (hVisit : ∀ a b, items a b → Follows states results (visit a) (visit' b)) {as : List α}
    {bs : List β} (h : List.Forall₂ items as bs) :
    Follows states (List.Forall₂ results) (as.mapM visit) (bs.mapM visit') := by
  induction h with
  | nil => exact .pure .nil
  | cons hFirst _ ih =>
    rw [List.mapM_cons, List.mapM_cons]
    refine (hVisit _ _ hFirst).bind fun _ _ hResult => ih.bind fun _ _ hResults => .pure ?_
    exact .cons hResult hResults

/-! ## Whole walks -/

theorem Follows.visitChild (hNodes : Node.Congruence nodes) {visit : Node → WalkM σ Node} {visit' : Node → WalkM τ Node}
    (hVisit : ∀ a b, nodes a b → Follows states nodes (visit a) (visit' b)) {a b : Node} (h : nodes a b) (slot : Slot) :
    Follows states nodes (visitChild visit a slot) (visitChild visit' b slot) := by
  have hChild := hNodes.child? h slot
  unfold Walk.visitChild
  cases hA : a.child? slot <;> cases hB : b.child? slot <;> rw [hA, hB] at hChild <;> cases hChild
  · exact .pure h
  · rename_i hChild
    exact (hVisit _ _ hChild).bind fun _ _ hNew => .pure (hNodes.setChild h hNew slot)

theorem Follows.visitChildren (hNodes : Node.Congruence nodes) {visit : Node → WalkM σ Node}
    {visit' : Node → WalkM τ Node} (hVisit : ∀ a b, nodes a b → Follows states nodes (visit a) (visit' b)) {a b : Node}
    (h : nodes a b) (slot : Slot) :
    Follows states nodes (visitChildren visit a slot) (visitChildren visit' b slot) := by
  unfold Walk.visitChildren
  exact (Follows.mapM hVisit (hNodes.children h slot)).bind fun _ _ hNew => .pure (hNodes.setChildren h hNew slot)

variable {handlers : Handlers σ} {handlers' : Handlers τ} (h : handlers.Simulation nodes states handlers')

include h

theorem follows_dispatch (visit : Visit) {a b : Node} (hNodes : nodes a b) :
    Follows states nodes (dispatch handlers visit a) (dispatch handlers' visit b) := by
  have hAgree := h.agree visit.kind.schema.handler
  unfold dispatch
  cases hA : handlers visit.kind.schema.handler <;> cases hB : handlers' visit.kind.schema.handler <;>
    rw [hA, hB] at hAgree <;> cases hAgree
  · exact .pure hNodes
  · rename_i hAgree
    intro s t hStates _ _ hHandler
    cases hHandler
    exact ⟨_, _, rfl, hAgree visit a b s t hNodes hStates⟩

/-- A walk is followed by any other one that may go at least as deep. -/
theorem follows_visit {limit limit' : Nat} (hLimit : limit ≤ limit') (depth : Nat) {a b : Node} (hNodes : nodes a b) :
    Follows states nodes (visit handlers limit depth a) (visit handlers' limit' depth b) := by
  induction limit generalizing limit' depth a b with
  | zero =>
    intro s t hStates _ _ hBroken
    cases hBroken
  | succ limit ih =>
    obtain ⟨limit', rfl⟩ := Nat.exists_eq_add_one_of_ne_zero (Nat.ne_of_gt (Nat.lt_of_lt_of_le limit.succ_pos hLimit))
    have hVisit (a b : Node) (hNodes : nodes a b) := ih (Nat.le_of_succ_le_succ hLimit) (depth + 1) hNodes
    have hKind := h.congruence.kind? hNodes
    unfold visit
    cases hA : a.kind? with
    | none =>
      rw [← hKind, hA]
      intro s t hStates _ _ hReport
      cases hReport
      exact ⟨b, _, rfl, hNodes, h.report hNodes hA hStates⟩
    | some kind =>
      rw [← hKind, hA]
      refine (follows_dispatch h _ hNodes).bind fun _ _ hFirst => ?_
      refine (Follows.foldlM _ (fun _ _ slot hNodes => ?_) hFirst).bind fun _ _ hSecond =>
        Follows.foldlM _ (fun _ _ slot hNodes => ?_) hSecond
      · exact .visitChild h.congruence hVisit hNodes slot
      · exact .visitChildren h.congruence hVisit hNodes slot

end Walk

/-! ## Walks that end -/

/-- Calls of one handler under the same key and for the same visit, with related nodes. -/
structure Dispatch.Agrees (nodes : Node → Node → Prop) (call call' : Dispatch) : Prop where
  key : call.key = call'.key
  visit : call.visit = call'.visit
  node : nodes call.node call'.node

/-- What is left of a walk: the tree, the state, and the calls of handlers in their order. -/
structure Walk.Result (σ : Type) where
  tree : Node
  state : WalkState σ
  calls : List Dispatch

/-- Whether a walk ends with a result. How deep it goes is left open. -/
def Walk.Yields (handlers : Handlers σ) (root : Node) (start : WalkState σ) (result : Result σ) : Prop :=
  ∃ limit, visit handlers.recorded limit 0 root (start.recording []) =
    .ok result.tree (result.state.recording result.calls)

namespace Handlers

variable {handlers : Handlers σ} {handlers' : Handlers τ}

theorem simulation_of_forall {handlers : Handlers σ} {nodes : Node → Node → Prop}
    {states : WalkState σ → WalkState σ → Prop} (hNodes : Node.Congruence nodes)
    (hReport : ∀ {a b s t}, nodes a b → a.kind? = Option.none → states s t →
      states (Walk.report (.unrecognizedNode a.tag a.span) s) (Walk.report (.unrecognizedNode b.tag b.span) t))
    (hAgree : ∀ key handler, handlers key = some handler → handler.Agree nodes states handler) :
    handlers.Simulation nodes states handlers := by
  refine ⟨hNodes, hReport, fun key => ?_⟩
  cases h : handlers key with
  | none => exact .none
  | some handler => exact .some (hAgree key handler h)

theorem simulation_self (handlers : Handlers σ) : handlers.Simulation Eq Eq handlers := by
  apply simulation_of_forall Node.congruence_eq
  · rintro a _ s _ rfl _ rfl
    rfl
  · rintro key handler _ visit a _ s _ rfl rfl
    exact ⟨rfl, rfl⟩

theorem Simulation.flip (h : handlers.Simulation nodes states handlers') :
    handlers'.Simulation (flip nodes) (flip states) handlers := by
  refine ⟨h.congruence.flip, fun hNodes hKind hStates => ?_, fun key => ?_⟩
  · exact h.report hNodes ((h.congruence.kind? hNodes).trans hKind) hStates
  · have hAgree := h.agree key
    cases hA : handlers key <;> cases hB : handlers' key <;> rw [hA, hB] at hAgree <;> cases hAgree
    · exact .none
    · rename_i hAgree
      exact .some fun visit a b s t hNodes hStates => hAgree visit b a t s hNodes hStates

/-- The record of the calls is all that a walk with recorded handlers has besides. -/
theorem simulation_recorded (handlers : Handlers σ) :
    handlers.Simulation Eq (fun s t => t.forget = s) handlers.recorded := by
  refine ⟨Node.congruence_eq, ?_, fun key => ?_⟩
  · rintro a _ _ t rfl _ rfl
    rfl
  · unfold recorded
    cases handlers key with
    | none => exact .none
    | some handler =>
      apply Option.Rel.some
      rintro visit a _ _ t rfl rfl
      exact ⟨rfl, rfl⟩

theorem Simulation.recorded (h : handlers.Simulation nodes states handlers') :
    handlers.recorded.Simulation nodes
      (fun s t => states s.forget t.forget ∧ List.Forall₂ (Dispatch.Agrees nodes) s.log.2 t.log.2)
      handlers'.recorded := by
  refine ⟨h.congruence, ?_, fun key => ?_⟩
  · rintro a b s t hNodes hKind ⟨hStates, hCalls⟩
    exact ⟨h.report hNodes hKind hStates, hCalls⟩
  · have hAgree := h.agree key
    unfold Handlers.recorded
    cases hA : handlers key <;> cases hB : handlers' key <;> rw [hA, hB] at hAgree <;> cases hAgree
    · exact .none
    · rename_i hAgree
      apply Option.Rel.some
      rintro visit a b s t hNodes ⟨hStates, hCalls⟩
      obtain ⟨hNode, hAfter⟩ := hAgree visit a b s.forget t.forget hNodes hStates
      exact ⟨hNode, hAfter, List.rel_append hCalls (.cons ⟨rfl, rfl, hNodes⟩ .nil)⟩

end Handlers

namespace Walk

variable {handlers : Handlers σ} {handlers' : Handlers τ} {root root' : Node} {start : WalkState σ}
  {start' : WalkState τ}

theorem yields_of_visit {limit : Nat} {tree : Node} {state : WalkState (σ × List Dispatch)}
    (h : visit handlers.recorded limit 0 root (start.recording []) = .ok tree state) :
    Yields handlers root start ⟨tree, state.forget, state.log.2⟩ := ⟨limit, h⟩

/-- A walk that ends is followed by that of handlers which agree with its handlers. -/
theorem Yields.follow (h : handlers.Simulation nodes states handlers') (hRoot : nodes root root')
    (hStart : states start start') {result : Result σ} (hYields : Yields handlers root start result) :
    ∃ result', Yields handlers' root' start' result' ∧ nodes result.tree result'.tree ∧
      states result.state result'.state ∧ List.Forall₂ (Dispatch.Agrees nodes) result.calls result'.calls := by
  obtain ⟨limit, hVisit⟩ := hYields
  obtain ⟨tree, state, hVisit', hTree, hState, hCalls⟩ :=
    follows_visit h.recorded (Nat.le_refl limit) 0 hRoot (start.recording []) (start'.recording []) ⟨hStart, .nil⟩ _ _
      hVisit
  exact ⟨_, yields_of_visit hVisit', hTree, hState, hCalls⟩

theorem Yields.unique {result result' : Result σ} (h : Yields handlers root start result)
    (h' : Yields handlers root start result') : result = result' := by
  obtain ⟨tree, ⟨symbols, diagnostics, log⟩, calls⟩ := result
  obtain ⟨tree', ⟨symbols', diagnostics', log'⟩, calls'⟩ := result'
  obtain ⟨limit, hVisit⟩ := h
  obtain ⟨limit', hVisit'⟩ := h'
  have hSelf := handlers.recorded.simulation_self
  obtain ⟨_, _, hLeft, rfl, rfl⟩ :=
    follows_visit hSelf (Nat.le_max_left limit limit') 0 rfl _ _ rfl _ _ hVisit
  obtain ⟨_, _, hRight, rfl, rfl⟩ :=
    follows_visit hSelf (Nat.le_max_right limit limit') 0 rfl _ _ rfl _ _ hVisit'
  cases hLeft.symm.trans hRight
  rfl

/-- The results are those of the walk itself: the record of the calls has no part in them. -/
theorem exists_yields_iff {tree : Node} {final : WalkState σ} :
    (∃ calls, Yields handlers root start ⟨tree, final, calls⟩) ↔
      ∃ limit, visit handlers limit 0 root start = .ok tree final := by
  have hRecorded := handlers.simulation_recorded
  constructor
  · rintro ⟨calls, limit, hVisit⟩
    obtain ⟨_, _, hPlain, rfl, rfl⟩ :=
      follows_visit hRecorded.flip (Nat.le_refl limit) 0 rfl (start.recording []) start rfl _ _ hVisit
    exact ⟨limit, hPlain⟩
  · rintro ⟨limit, hVisit⟩
    obtain ⟨_, state, hVisit', rfl, rfl⟩ :=
      follows_visit hRecorded (Nat.le_refl limit) 0 rfl _ (start.recording []) rfl _ _ hVisit
    exact ⟨state.log.2, yields_of_visit hVisit'⟩

/-- Of two walks with handlers that agree, both end or neither does, and what they leave is related. -/
theorem yields_of_simulation (h : handlers.Simulation nodes states handlers') (hRoot : nodes root root')
    (hStart : states start start') :
    ((∃ result, Yields handlers root start result) ↔ ∃ result', Yields handlers' root' start' result') ∧
    ∀ result result', Yields handlers root start result → Yields handlers' root' start' result' →
      nodes result.tree result'.tree ∧ states result.state result'.state ∧
        List.Forall₂ (Dispatch.Agrees nodes) result.calls result'.calls := by
  refine ⟨⟨?_, ?_⟩, ?_⟩
  · rintro ⟨result, hYields⟩
    obtain ⟨result', hYields', -⟩ := hYields.follow h hRoot hStart
    exact ⟨result', hYields'⟩
  · rintro ⟨result', hYields'⟩
    obtain ⟨result, hYields, -⟩ := hYields'.follow h.flip hRoot hStart
    exact ⟨result, hYields⟩
  · intro result result' hYields hYields'
    obtain ⟨_, hOther, hRelated⟩ := hYields.follow h hRoot hStart
    rw [hOther.unique hYields'] at hRelated
    exact hRelated

theorem visit_eq_run (h : handlers.NonGrowing) (root : Node) (start : WalkState σ) :
    visit handlers root.size 0 root start = .ok (run handlers h root start).1 (run handlers h root start).2 := by
  obtain ⟨tree, final, hVisit, -⟩ := ends_visit h root.size 0 root (Nat.le_refl _) start
  have hRun : run handlers h root start = (tree, final) := by
    unfold run
    split
    · rename_i hOk
      cases hOk.symm.trans hVisit
      rfl
    · rename_i hBroken
      cases hBroken.symm.trans hVisit
  rw [hRun, hVisit]

/-- Handlers that do not make nodes grow give walks that end. -/
theorem exists_yields_run (h : handlers.NonGrowing) (root : Node) (start : WalkState σ) :
    ∃ calls, Yields handlers root start ⟨(run handlers h root start).1, (run handlers h root start).2, calls⟩ :=
  exists_yields_iff.mpr ⟨root.size, visit_eq_run h root start⟩

/-- A walk that has ended ends alike where it may go deeper. -/
theorem visit_of_le {limit limit' depth : Nat} (hLimit : limit ≤ limit') {tree : Node} {final : WalkState σ}
    (h : visit handlers limit depth root start = .ok tree final) :
    visit handlers limit' depth root start = .ok tree final := by
  obtain ⟨_, _, hVisit, rfl, rfl⟩ := follows_visit handlers.simulation_self hLimit depth rfl start start rfl _ _ h
  exact hVisit

end Walk
end Listfile
