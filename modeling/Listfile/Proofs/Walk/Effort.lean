import Mathlib.Data.List.Flatten
import Mathlib.Data.List.Nodup
import Mathlib.Data.List.Perm.Subperm
import Listfile.Proofs.Walk.Discipline
import Listfile.Proofs.Walk.Simulation
import Listfile.Resolve
/-! # What a walk costs

The calls of handlers and the reports of unknown nodes are counted by handlers that keep the two apart. Where no call
makes its node grow, the nodes that the node holds afterwards are as many as the walk may still call handlers for or
report below it. So the walk ends, at a cost of at most the size of the tree that it starts from.
-/
namespace Listfile
set_option autoImplicit false

variable {σ : Type}

/-! ## Slots -/

namespace Node

/-- The nodes in some slots. -/
def held (node : Node) (slots : List Slot) : List Node := slots.flatMap node.inSlot

theorem size_eq_held (node : Node) : node.size = sizeAll (node.held Slot.all) + 1 := by
  cases node with
  | conditional _ _ _ elseClause =>
    cases elseClause <;> simp [Slot.all, held, inSlot, child?, children, sizeAll_append, sizeAll, sizeOption, size] <;>
      omega
  | _ => simp [Slot.all, held, inSlot, child?, children, sizeAll_append, sizeAll, size] <;> omega

theorem sizeAll_le_of_sublist {nodes others : List Node} (h : nodes.Sublist others) :
    sizeAll nodes ≤ sizeAll others := by
  induction h with
  | slnil => exact Nat.le_refl _
  | cons node _ ih => exact Nat.le_trans ih (Nat.le_add_left _ _)
  | cons_cons node _ ih => exact Nat.add_le_add_left ih _

theorem sizeAll_held_lt (node : Node) {slots : List Slot} (h : slots.Nodup) :
    sizeAll (node.held slots) < node.size := by
  have hSubset : slots ⊆ Slot.all := fun slot _ => by cases slot <;> decide
  obtain ⟨slots', hPerm, hSublist⟩ := List.subperm_of_subset h hSubset
  have hSame : sizeAll (node.held slots') = sizeAll (node.held slots) := sizeAll_perm (hPerm.flatMap_right _)
  have hLe : sizeAll (node.held slots') ≤ sizeAll (node.held Slot.all) :=
    sizeAll_le_of_sublist (hSublist.flatMap _)
  rw [size_eq_held]
  omega

theorem size_lt_of_mem_inSlot {node child : Node} {slot : Slot} (h : child ∈ node.inSlot slot) :
    child.size < node.size := by
  have hLt := node.sizeAll_held_lt (List.nodup_singleton slot)
  rw [held, List.flatMap_singleton] at hLt
  exact Nat.lt_of_le_of_lt (size_le_sizeAll h) hLt

/-- Whether another node holds the same as a node does, but for some slots. -/
def SameBut (node : Node) (slots : List Slot) (other : Node) : Prop :=
  ∀ slot, slot ∉ slots → other.inSlot slot = node.inSlot slot

theorem sameBut_setChild (node : Node) (slot : Slot) (child : Node) :
    node.SameBut [slot] (node.setChild slot child) := by
  intro other hOther
  rw [List.mem_singleton] at hOther
  rw [inSlot, inSlot, child?_setChild_of_ne node child hOther, children_setChild]

theorem sameBut_setChildren (node : Node) (slot : Slot) (nodes : List Node) :
    node.SameBut [slot] (node.setChildren slot nodes) := by
  intro other hOther
  rw [List.mem_singleton] at hOther
  rw [inSlot, inSlot, child?_setChildren, children_setChildren_of_ne node nodes hOther]

theorem SameBut.cons {node other last : Node} {slot : Slot} {slots : List Slot} (h : node.SameBut [slot] other)
    (hRest : other.SameBut slots last) : node.SameBut (slot :: slots) last := by
  intro kept hKept
  rw [List.mem_cons, not_or] at hKept
  exact (hRest kept hKept.2).trans (h kept (by simpa using hKept.1))

end Node

/-! ## Counting -/

/-- Whether a handler left as many nodes as it was given, or fewer. -/
def Reached.NonGrowing (call : Reached) : Prop := call.after.size ≤ call.before.size

theorem Diagnostics.records_report {diagnostics : Diagnostics} (h : diagnostics.enabled) (diagnostic : Diagnostic) :
    (diagnostics.report diagnostic).records = diagnostics.records ++ [diagnostic] := by
  rw [report, if_pos h]

/-- The log of a walk, with the calls of handlers so far, the diagnostics as the last call left them and what the walk
itself reported before that call. -/
structure Meter (σ : Type) where
  log : σ
  diagnostics : Diagnostics
  calls : List Reached
  reports : List Diagnostic

namespace WalkState

/-- The state that handlers are to see. What the walk reports is collected apart, whether or not reports are kept. -/
def unmetered (state : WalkState (Meter σ)) : WalkState σ :=
  ⟨state.symbols, state.diagnostics.records.foldl Diagnostics.report state.log.diagnostics, state.log.log⟩

def metering (state : WalkState σ) (calls : List Reached) (reports : List Diagnostic) : WalkState (Meter σ) :=
  ⟨state.symbols, .start true, state.log, state.diagnostics, calls, reports⟩

/-- All that the walk itself has reported. -/
def reports (state : WalkState (Meter σ)) : List Diagnostic := state.log.reports ++ state.diagnostics.records

theorem unmetered_report {state : WalkState (Meter σ)} (h : state.diagnostics.enabled) (diagnostic : Diagnostic) :
    (Walk.report diagnostic state).unmetered = Walk.report diagnostic state.unmetered := by
  simp only [unmetered, Walk.report, Diagnostics.records_report h, List.foldl_append, List.foldl_cons, List.foldl_nil]

def cost (state : WalkState (Meter σ)) : Nat := state.log.calls.length + state.reports.length

theorem cost_metering (state : WalkState σ) (calls : List Reached) (reports : List Diagnostic) :
    (state.metering calls reports).cost = calls.length + reports.length := by
  simp [cost, WalkState.reports, metering, Diagnostics.start]

theorem cost_report_le (state : WalkState (Meter σ)) (diagnostic : Diagnostic) :
    (Walk.report diagnostic state).cost ≤ state.cost + 1 := by
  have hReports : (Walk.report diagnostic state).reports.length ≤ state.reports.length + 1 := by
    unfold reports Walk.report Diagnostics.report
    split
    · simp only [List.length_append, List.length_singleton]
      omega
    · exact Nat.le_succ _
  exact Nat.add_le_add_left hReports _

end WalkState

namespace Handlers

/-- The handlers of a table, whose calls are noted, and to which the walk's own reports look as ever. -/
def metered (handlers : Handlers σ) : Handlers (Meter σ) := fun key =>
  (handlers key).map fun handler visit node => fun state =>
    let (after, left) := (handler visit node).run state.unmetered
    (after, left.metering (state.log.calls ++ [⟨key, visit, node, after⟩]) state.reports)

/-- Counting changes nothing of a walk. -/
theorem simulation_metered (handlers : Handlers σ) :
    handlers.Simulation Eq (fun s t => t.unmetered = s ∧ t.diagnostics.enabled) handlers.metered := by
  refine ⟨Node.congruence_eq, ?_, fun key => ?_⟩
  · rintro a _ _ t rfl _ ⟨rfl, hEnabled⟩
    exact ⟨WalkState.unmetered_report hEnabled _, by simpa [Walk.report] using hEnabled⟩
  · unfold metered
    cases handlers key with
    | none => exact .none
    | some handler =>
      apply Option.Rel.some
      rintro visit a _ _ t rfl ⟨rfl, -⟩
      exact ⟨rfl, rfl, rfl⟩

end Handlers

namespace Walk

variable {α β : Type}

/-! ## Calls add up -/

/-- Whether all that a part of a walk does to the calls is to add some that fit. -/
def AddsCalls (fits : Reached → Prop) (part : WalkM (Meter σ) α) : Prop :=
  ∀ state, ∃ added, (Outcome.state (part state)).log.calls = state.log.calls ++ added ∧ ∀ call ∈ added, fits call

abbrev KeepsCalls (part : WalkM (Meter σ) α) : Prop := AddsCalls (fun _ => True) part

namespace AddsCalls

variable {fits : Reached → Prop}

theorem subset {part : WalkM (Meter σ) α} (h : AddsCalls fits part) (state : WalkState (Meter σ)) :
    state.log.calls ⊆ (Outcome.state (part state)).log.calls := by
  obtain ⟨added, hCalls, -⟩ := h state
  rw [hCalls]
  exact List.subset_append_left _ _

theorem of_same {part : WalkM (Meter σ) α} (h : ∀ state, (Outcome.state (part state)).log.calls = state.log.calls) :
    AddsCalls fits part := by
  intro state
  refine ⟨[], ?_, fun _ hCall => by cases hCall⟩
  rw [h, List.append_nil]

theorem pure (a : α) : AddsCalls (σ := σ) fits (Pure.pure a) := of_same fun _ => rfl

theorem bind {part : WalkM (Meter σ) α} {next : α → WalkM (Meter σ) β} (h : AddsCalls fits part)
    (hNext : ∀ a, AddsCalls fits (next a)) : AddsCalls fits (part >>= next) := by
  intro state
  obtain ⟨added, hAdded, hFits⟩ := h state
  cases hEnd : part state with
  | error broken middle =>
    rw [hEnd] at hAdded
    rw [bind_error hEnd]
    exact ⟨added, hAdded, hFits⟩
  | ok a middle =>
    rw [hEnd] at hAdded
    obtain ⟨more, hMore, hFits'⟩ := hNext a middle
    rw [bind_ok hEnd, hMore]
    refine ⟨added ++ more, ?_, List.forall_mem_append.mpr ⟨hFits, hFits'⟩⟩
    rw [← List.append_assoc]
    exact congrArg (· ++ more) hAdded

theorem foldlM {step : Node → Slot → WalkM (Meter σ) Node} (hStep : ∀ node slot, AddsCalls fits (step node slot))
    (slots : List Slot) (node : Node) : AddsCalls fits (slots.foldlM step node) := by
  induction slots generalizing node with
  | nil => exact .pure node
  | cons slot rest ih =>
    rw [List.foldlM_cons]
    exact (hStep node slot).bind ih

variable {visit : Node → WalkM (Meter σ) Node} (hVisit : ∀ node, AddsCalls fits (visit node))
include hVisit

theorem mapM (nodes : List Node) : AddsCalls fits (nodes.mapM visit) := by
  induction nodes with
  | nil => exact .pure []
  | cons node rest ih =>
    rw [List.mapM_cons]
    exact (hVisit node).bind fun _ => ih.bind fun _ => .pure _

theorem visitChild (node : Node) (slot : Slot) : AddsCalls fits (visitChild visit node slot) := by
  unfold Walk.visitChild
  cases node.child? slot with
  | none => exact .pure node
  | some child => exact (hVisit child).bind fun _ => .pure _

theorem visitChildren (node : Node) (slot : Slot) : AddsCalls fits (visitChildren visit node slot) :=
  (mapM hVisit (node.children slot)).bind fun _ => .pure _

theorem slots (kind : Kind) (node : Node) : AddsCalls fits (do
    let node ← kind.schema.single.foldlM (Walk.visitChild visit) node
    kind.schema.multi.foldlM (Walk.visitChildren visit) node) :=
  (foldlM (visitChild hVisit) _ node).bind (foldlM (visitChildren hVisit) _)

end AddsCalls

theorem addsCalls_visit {handlers : Handlers σ} {fits : Reached → Prop}
    (h : ∀ key handler, handlers key = some handler → ∀ visit node state,
      fits ⟨key, visit, node, ((handler visit node).run state).1⟩) (limit depth : Nat) (node : Node) :
    AddsCalls fits (visit handlers.metered limit depth node) := by
  have hDispatch (visit : Visit) (node : Node) : AddsCalls fits (dispatch handlers.metered visit node) := by
    unfold dispatch Handlers.metered
    cases hHandler : handlers visit.kind.schema.handler with
    | none => exact .pure node
    | some handler =>
      exact fun state => ⟨_, rfl, List.forall_mem_singleton.mpr (h _ handler hHandler visit node state.unmetered)⟩
  induction limit generalizing depth node with
  | zero => exact .of_same fun _ => rfl
  | succ limit ih =>
    unfold visit
    cases node.kind? with
    | none => exact .of_same fun _ => rfl
    | some kind => exact (hDispatch _ node).bind (.slots (ih (depth + 1)) kind)

/-! ## The bound -/

/-- Whether a part of a walk, unless a call made in it or before it grows its node, ends with a fitting result and costs
no more than the bound. -/
def Costs (bound : Nat) (results : α → Prop) (part : WalkM (Meter σ) α) : Prop :=
  ∀ state, (∀ call ∈ (Outcome.state (part state)).log.calls, call.NonGrowing) →
    ∃ a state', part state = .ok a state' ∧ results a ∧ state'.cost ≤ state.cost + bound

namespace Costs

variable {bound bound' : Nat} {results : α → Prop} {results' : β → Prop}

theorem pure {a : α} (h : results a) : Costs (σ := σ) 0 results (Pure.pure a) :=
  fun state _ => ⟨a, state, rfl, h, Nat.le_refl _⟩

theorem mono {part : WalkM (Meter σ) α} {weaker : α → Prop} (h : Costs bound results part) (hBound : bound ≤ bound')
    (hWeaker : ∀ a, results a → weaker a) : Costs bound' weaker part := by
  intro state hCalls
  obtain ⟨a, state', hPart, hResults, hCost⟩ := h state hCalls
  exact ⟨a, state', hPart, hWeaker a hResults, by omega⟩

theorem bind {part : WalkM (Meter σ) α} {next : α → WalkM (Meter σ) β} (h : Costs bound results part)
    (hKeeps : ∀ a, KeepsCalls (next a)) (hNext : ∀ a, results a → Costs bound' results' (next a)) :
    Costs (bound + bound') results' (part >>= next) := by
  intro state hCalls
  cases hEnd : part state with
  | error broken middle =>
    -- A part that is broken off has made a call that grows its node.
    rw [bind_error hEnd] at hCalls
    obtain ⟨_, _, hPart, -⟩ := h state (by rwa [hEnd])
    cases hEnd.symm.trans hPart
  | ok a middle =>
    rw [bind_ok hEnd] at hCalls ⊢
    have hBefore : ∀ call ∈ (Outcome.state (part state)).log.calls, call.NonGrowing := by
      rw [hEnd]
      exact fun call hCall => hCalls call ((hKeeps a).subset middle hCall)
    obtain ⟨_, _, hPart, hResults, hCost⟩ := h state hBefore
    cases hEnd.symm.trans hPart
    obtain ⟨b, last, hLast, hResults', hCost'⟩ := hNext a hResults middle hCalls
    exact ⟨b, last, hLast, hResults', by omega⟩

variable {visit : Node → WalkM (Meter σ) Node}

theorem mapM (hKeeps : ∀ node, KeepsCalls (visit node)) (nodes : List Node)
    (hVisit : ∀ node ∈ nodes, Costs node.size (fun _ => True) (visit node)) :
    Costs (Node.sizeAll nodes) (fun _ => True) (nodes.mapM visit) := by
  induction nodes with
  | nil => exact .pure trivial
  | cons node rest ih =>
    obtain ⟨hFirst, hRest⟩ := List.forall_mem_cons.mp hVisit
    rw [List.mapM_cons, Node.sizeAll]
    refine hFirst.bind (fun _ => (AddsCalls.mapM hKeeps rest).bind fun _ => .pure _) fun _ _ => ?_
    exact (ih hRest).bind (fun _ => .pure _) fun _ _ => .pure trivial

theorem visitChild (node : Node) (slot : Slot)
    (hVisit : ∀ child ∈ node.inSlot slot, Costs child.size (fun _ => True) (visit child)) :
    Costs (Node.sizeAll (node.inSlot slot)) (node.SameBut [slot]) (Walk.visitChild visit node slot) := by
  unfold Walk.visitChild
  cases hChild : node.child? slot with
  | none => exact (Costs.pure fun _ _ => rfl).mono (Nat.zero_le _) fun _ h => h
  | some child =>
    have hMem : child ∈ node.inSlot slot := by simp [Node.inSlot, hChild]
    have hCosts := (hVisit child hMem).bind (fun _ => .pure _) fun after _ => .pure (node.sameBut_setChild slot after)
    exact hCosts.mono (Node.size_le_sizeAll hMem) fun _ h => h

theorem visitChildren (hKeeps : ∀ node, KeepsCalls (visit node)) (node : Node) (slot : Slot)
    (hVisit : ∀ child ∈ node.inSlot slot, Costs child.size (fun _ => True) (visit child)) :
    Costs (Node.sizeAll (node.inSlot slot)) (node.SameBut [slot]) (Walk.visitChildren visit node slot) := by
  have hLe : Node.sizeAll (node.children slot) ≤ Node.sizeAll (node.inSlot slot) :=
    Node.sizeAll_le_of_sublist (List.sublist_append_right _ _)
  have hChildren := mapM hKeeps (node.children slot) fun child hChild => hVisit child (List.mem_append_right _ hChild)
  have hCosts := hChildren.bind (fun _ => .pure _) fun after _ => .pure (node.sameBut_setChildren slot after)
  exact hCosts.mono hLe fun _ h => h

theorem foldlM {step : Node → Slot → WalkM (Meter σ) Node} {children : Node → Prop}
    (hKeeps : ∀ node slot, KeepsCalls (step node slot))
    (hStep : ∀ node slot, (∀ child ∈ node.inSlot slot, children child) →
      Costs (Node.sizeAll (node.inSlot slot)) (node.SameBut [slot]) (step node slot))
    {slots : List Slot} (hNodup : slots.Nodup) (node : Node)
    (hChildren : ∀ slot ∈ slots, ∀ child ∈ node.inSlot slot, children child) :
    Costs (Node.sizeAll (node.held slots)) (node.SameBut slots) (slots.foldlM step node) := by
  induction slots generalizing node with
  | nil => exact .pure fun _ _ => rfl
  | cons slot rest ih =>
    obtain ⟨hNotMem, hNodup⟩ := List.nodup_cons.mp hNodup
    obtain ⟨hFirst, hRest⟩ := List.forall_mem_cons.mp hChildren
    rw [List.foldlM_cons, Node.held, List.flatMap_cons, Node.sizeAll_append]
    refine (hStep node slot hFirst).bind (AddsCalls.foldlM hKeeps rest) fun after hAfter => ?_
    -- The slots whose turn comes later hold what they held before.
    have hSame : ∀ other ∈ rest, after.inSlot other = node.inSlot other := fun other hOther =>
      hAfter other (by simpa using ne_of_mem_of_not_mem hOther hNotMem)
    rw [← List.flatMap_congr hSame]
    refine (ih hNodup after fun other hOther => ?_).mono (Nat.le_refl _) fun last hLast => hAfter.cons hLast
    rw [hSame other hOther]
    exact hRest other hOther

end Costs

/-- Visiting what a node holds costs less than the size of the node. -/
theorem costs_slots {visit : Node → WalkM (Meter σ) Node} (hKeeps : ∀ node, KeepsCalls (visit node)) (kind : Kind)
    (node : Node) (hVisit : ∀ child, child.size < node.size → Costs child.size (fun _ => True) (visit child)) :
    Costs (node.size - 1) (fun _ => True) (do
      let node ← kind.schema.single.foldlM (visitChild visit) node
      kind.schema.multi.foldlM (visitChildren visit) node) := by
  obtain ⟨hSingle, hMulti, hAcross⟩ := List.nodup_append.mp kind.nodup_slots
  have hSum : Node.sizeAll (node.held kind.schema.single) + Node.sizeAll (node.held kind.schema.multi) ≤
      node.size - 1 := by
    have hLt := node.sizeAll_held_lt kind.nodup_slots
    rw [Kind.slots, Node.held, List.flatMap_append, Node.sizeAll_append] at hLt
    exact Nat.le_sub_one_of_lt hLt
  have hSingleStep (other : Node) (slot : Slot) (hOther : ∀ child ∈ other.inSlot slot, child.size < node.size) :=
    Costs.visitChild other slot fun child hChild => hVisit child (hOther child hChild)
  have hMultiStep (other : Node) (slot : Slot) (hOther : ∀ child ∈ other.inSlot slot, child.size < node.size) :=
    Costs.visitChildren hKeeps other slot fun child hChild => hVisit child (hOther child hChild)
  have hFirst := Costs.foldlM (AddsCalls.visitChild hKeeps) hSingleStep hSingle node fun _ _ _ hChild =>
    Node.size_lt_of_mem_inSlot hChild
  refine (hFirst.bind (AddsCalls.foldlM (.visitChildren hKeeps) _) fun after hAfter => ?_).mono hSum fun _ h => h
  have hSame : ∀ slot ∈ kind.schema.multi, after.inSlot slot = node.inSlot slot := fun slot hSlot =>
    hAfter slot fun hMem => hAcross slot hMem slot hSlot rfl
  rw [Node.held, ← List.flatMap_congr hSame]
  refine (Costs.foldlM (.visitChildren hKeeps) hMultiStep hMulti after fun slot hSlot child hChild => ?_).mono
    (Nat.le_refl _) fun _ _ => trivial
  rw [hSame slot hSlot] at hChild
  exact Node.size_lt_of_mem_inSlot hChild

theorem costs_dispatch (handlers : Handlers σ) (visit : Visit) (node : Node) :
    Costs 1 (fun after => after.size ≤ node.size) (dispatch handlers.metered visit node) := by
  intro state hCalls
  unfold dispatch Handlers.metered at hCalls ⊢
  cases hHandler : handlers visit.kind.schema.handler with
  | none => exact ⟨node, state, rfl, Nat.le_refl _, Nat.le_succ _⟩
  | some handler =>
    rw [hHandler] at hCalls
    have hCall := hCalls ⟨_, visit, node, _⟩ (List.mem_append_right _ List.mem_cons_self)
    refine ⟨_, _, rfl, hCall, Nat.le_of_eq ((WalkState.cost_metering _ _ _).trans ?_)⟩
    rw [List.length_append, List.length_singleton, WalkState.cost]
    omega

/-- A walk that may go as deep as the tree is large costs no more than that. -/
theorem costs_visit (handlers : Handlers σ) (limit depth : Nat) (node : Node) (hSize : node.size ≤ limit) :
    Costs node.size (fun _ => True) (visit handlers.metered limit depth node) := by
  have hPos := node.size_pos
  induction limit generalizing depth node with
  | zero => omega
  | succ limit ih =>
    unfold visit
    cases node.kind? with
    | none =>
      intro state _
      refine ⟨node, _, rfl, trivial, ?_⟩
      have hCost := state.cost_report_le (.unrecognizedNode node.tag node.span)
      omega
    | some kind =>
      have hKeeps : ∀ child, KeepsCalls (visit handlers.metered limit (depth + 1) child) :=
        addsCalls_visit (fun _ _ _ _ _ _ => trivial) limit (depth + 1)
      have hBelow : ∀ first : Node, first.size ≤ node.size → Costs (node.size - 1) (fun _ => True) (do
          let node ← kind.schema.single.foldlM (visitChild (visit handlers.metered limit (depth + 1))) first
          kind.schema.multi.foldlM (visitChildren (visit handlers.metered limit (depth + 1))) node) := by
        intro first hFirst
        refine (costs_slots hKeeps kind first fun child hChild => ?_).mono (by omega) fun _ h => h
        exact ih (depth + 1) child (by omega) child.size_pos
      refine ((costs_dispatch handlers _ node).bind (AddsCalls.slots hKeeps kind) hBelow).mono (by omega) fun _ h => h

/-! ## Whole walks -/

section meter

variable (handlers : Handlers σ) (limit : Nat) (root : Node) (start : WalkState σ)

/-- The counts of a walk that goes down to a limit, where it ends or is broken off. -/
def meter : Meter σ := (Outcome.state (visit handlers.metered limit 0 root (start.metering [] []))).log

variable {handlers limit root start}

theorem visit_of_metered {tree : Node} {state : WalkState (Meter σ)}
    (h : visit handlers.metered limit 0 root (start.metering [] []) = .ok tree state) :
    visit handlers limit 0 root start = .ok tree state.unmetered := by
  obtain ⟨_, _, hVisit, rfl, rfl, -⟩ := follows_visit handlers.simulation_metered.flip (Nat.le_refl limit) 0 rfl
    (start.metering [] []) start ⟨rfl, rfl⟩ _ _ h
  exact hVisit

theorem nonGrowing_of_mem_meter (h : handlers.NonGrowing) :
    ∀ call ∈ (meter handlers limit root start).calls, call.NonGrowing := by
  have hAdds : AddsCalls Reached.NonGrowing (visit handlers.metered limit 0 root) := by
    apply addsCalls_visit
    exact h
  obtain ⟨added, hCalls, hFits⟩ := hAdds (start.metering [] [])
  rw [meter, hCalls]
  exact hFits

end meter

/-- A walk in which no call of a handler, as far as it may come, leaves more nodes than the handler was given comes to
an end. The calls of handlers and the reports of unknown nodes are then at most as many as the nodes of the tree. -/
theorem walk_costs_at_most_size (handlers : Handlers σ) (root : Node) (start : WalkState σ) :
    ((∀ limit, ∀ call ∈ (meter handlers limit root start).calls, call.after.size ≤ call.before.size) →
      ∃ tree state,
        (∀ limit, root.size ≤ limit →
          visit handlers.metered limit 0 root (start.metering [] []) = .ok tree state ∧
            visit handlers limit 0 root start = .ok tree state.unmetered) ∧
        state.log.calls.length + state.reports.length ≤ root.size) ∧
    (∀ h : handlers.NonGrowing,
      (∀ limit, ∀ call ∈ (meter handlers limit root start).calls, call.after.size ≤ call.before.size) ∧
        ∀ limit, root.size ≤ limit →
          visit handlers limit 0 root start = .ok (run handlers h root start).1 (run handlers h root start).2) ∧
    (∀ command, (Resolve.handlers (σ := σ) command).NonGrowing) ∧
    (∀ label node, (Node.setLabel label node).size ≤ node.size) ∧
    ∀ slot node, (Node.setChildren slot node []).size ≤ node.size := by
  refine ⟨fun hCalls => ?_, fun h => ⟨fun limit => nonGrowing_of_mem_meter h, fun limit hLimit => ?_⟩,
    Resolve.nonGrowing_handlers, fun label node => ?_, fun slot node => Node.size_setChildren_le (Nat.zero_le _)⟩
  · obtain ⟨tree, state, hVisit, -, hCost⟩ := costs_visit handlers root.size 0 root (Nat.le_refl _) _ (hCalls root.size)
    rw [WalkState.cost_metering, WalkState.cost] at hCost
    refine ⟨tree, state, fun limit hLimit => ?_, by simpa using hCost⟩
    have hDeeper := visit_of_le hLimit hVisit
    exact ⟨hDeeper, visit_of_metered hDeeper⟩
  · exact visit_of_le hLimit (visit_eq_run h root start)
  · cases node <;> exact Nat.le_refl _

/-- Handlers that clear the arguments of the calls they are given, on a tree with a node of unknown kind. -/
theorem walk_costs_at_most_size_of_clearing :
    let place : Location := default
    let word (text : String) : Node := .word place .unquoted text
    let root : Node := .toplevel place [.call place "f" [word "a", word "b"], .unrecognized place "Comment" .null]
    let clear : Handler Unit := fun _ node => pure (node.setChildren .arguments [])
    let start : WalkState Unit := ⟨.empty, .start false, ()⟩
    ∃ (tree : Node) (state : WalkState (Meter Unit)),
      (∀ limit, 5 ≤ limit → visit (Handlers.none.register .call clear) limit 0 root start = .ok tree state.unmetered) ∧
        state.log.calls.length + state.reports.length ≤ 5 := by
  intro place word root clear start
  have hClear : (Handlers.none.register .call clear).NonGrowing :=
    Handlers.nonGrowing_none.register _ fun _ _ _ => Node.size_setChildren_le (Nat.zero_le _)
  obtain ⟨hCosts, hNonGrowing, -⟩ := walk_costs_at_most_size (Handlers.none.register .call clear) root start
  obtain ⟨tree, state, hVisit, hCost⟩ := hCosts (hNonGrowing hClear).1
  exact ⟨tree, state, fun limit hLimit => (hVisit limit hLimit).2, hCost⟩

/-! ## Growth -/

/-- The handler for calls that puts a call around the one it is given. -/
def wrapping : Handlers σ := Handlers.none.register .call fun _ node => pure (.call node.place "" [node])

/-- A walk that comes to a call then goes on without an end. -/
theorem visit_wrapping (limit depth : Nat) (place : Location) (name : String) (arguments : List Node)
    (state : WalkState σ) : ∃ cut, visit wrapping limit depth (.call place name arguments) state =
      .error .depthExceeded cut := by
  induction limit generalizing depth place name arguments with
  | zero => exact ⟨state, rfl⟩
  | succ limit ih =>
    obtain ⟨cut, hCut⟩ := ih (depth + 1) place name arguments
    refine ⟨cut, ?_⟩
    have hChild : [Node.call place name arguments].mapM (visit wrapping limit (depth + 1)) state =
        .error .depthExceeded cut := by rw [List.mapM_cons, bind_error hCut]
    have hSlot : visitChildren (visit wrapping limit (depth + 1)) (.call place "" [.call place name arguments])
        .arguments state = .error .depthExceeded cut := bind_error hChild
    have hSlots : [Slot.arguments].foldlM (visitChildren (visit wrapping limit (depth + 1)))
        (.call place "" [.call place name arguments]) state = .error .depthExceeded cut := by
      rw [List.foldlM_cons, bind_error hSlot]
    exact hSlots

end Walk

end Listfile
