import Listfile.Proofs.Walk.Reached
/-! # What a walk reaches under any handlers

Under handlers that may make nodes grow, a walk need not end at all. Walks to a limited depth are traced here: one that
may go deeper reaches the same nodes and perhaps more, and one that is broken off has reached at least as many nodes as
its limit. What holds of all their traces then holds at every point of a walk without a limit.
-/
namespace Listfile
set_option autoImplicit false

variable {σ α β : Type}

/-! ## Tracing -/

def WalkState.untraced (state : WalkState (σ × List Reached)) : WalkState σ :=
  ⟨state.symbols, state.diagnostics, state.log.1⟩

def WalkState.tracing (state : WalkState σ) (trace : List Reached) : WalkState (σ × List Reached) :=
  ⟨state.symbols, state.diagnostics, state.log, trace⟩

namespace Handlers

/-- What is done at a node: nothing, if there is no handler. -/
def act (handlers : Handlers σ) (key : HandlerKey) : Handler σ :=
  match handlers key with
  | .none => fun _ node => pure node
  | some handler => handler

/-- Handlers under every key that do what those of a table do and then add the node to the trace. -/
def traced (handlers : Handlers σ) : Handlers (σ × List Reached) := fun key =>
  some fun visit node state =>
    let (after, state') := (handlers.act key visit node).run state.untraced
    (after, state'.tracing (state.log.2 ++ [⟨key, visit, node, after⟩]))

end Handlers

namespace Walk

abbrev Outcome (σ α : Type) := EStateM.Result DepthExceeded (WalkState σ) α

namespace Outcome

/-- The state in which a part of a walk ends or is broken off. -/
def state : Outcome σ α → WalkState σ
  | .ok _ state | .error _ state => state

def tracing (trace : List Reached) : Outcome σ α → Outcome (σ × List Reached) α
  | .ok a state => .ok a (state.tracing trace)
  | .error broken state => .error broken (state.tracing trace)

theorem trace_tracing (trace : List Reached) (outcome : Outcome σ α) :
    (state (tracing trace outcome)).log.2 = trace := by
  cases outcome <;> rfl

theorem tracing_injective {trace trace' : List Reached} {outcome outcome' : Outcome σ α}
    (h : tracing trace outcome = tracing trace' outcome') : outcome = outcome' ∧ trace = trace' := by
  cases outcome with
  | ok a =>
    cases outcome' with
    | ok =>
      obtain ⟨rfl, hState⟩ := EStateM.Result.ok.inj h
      exact ⟨congrArg (EStateM.Result.ok a) (congrArg WalkState.untraced hState), congrArg (·.log.2) hState⟩
    | error => cases h
  | error broken =>
    cases outcome' with
    | ok => cases h
    | error =>
      obtain ⟨rfl, hState⟩ := EStateM.Result.error.inj h
      exact ⟨congrArg (EStateM.Result.error broken) (congrArg WalkState.untraced hState), congrArg (·.log.2) hState⟩

/-- What holds of the result of a part that ends, or else of one that is broken off. -/
def Fits (results : α → Prop) (broken : Prop) : Outcome σ α → Prop
  | .ok a _ => results a
  | .error .. => broken

theorem Fits.imp {results results' : α → Prop} {broken broken' : Prop} {outcome : Outcome σ α}
    (h : Fits results broken outcome) (hResults : ∀ a, results a → results' a) (hBroken : broken → broken') :
    Fits results' broken' outcome := by
  cases outcome with
  | ok a => exact hResults a h
  | error => exact hBroken h

end Outcome

theorem bind_error {part : WalkM σ α} {next : α → WalkM σ β} {state state' : WalkState σ} {broken : DepthExceeded}
    (h : part state = .error broken state') : (part >>= next) state = .error broken state' := by
  simp [Bind.bind, EStateM.bind, h]

theorem dispatch_eq (handlers : Handlers σ) (visit : Visit) (node : Node) (state : WalkState σ) :
    dispatch handlers visit node state =
      .ok ((handlers.act visit.kind.schema.handler visit node).run state).1
        ((handlers.act visit.kind.schema.handler visit node).run state).2 := by
  unfold dispatch Handlers.act
  cases handlers visit.kind.schema.handler <;> rfl

/-- Whether a part of a traced walk goes as the part of the walk itself and adds to the trace what is said of it, and
at least as many nodes as levels may be entered if it is broken off. -/
def Traces (room : Nat) (trace : List Reached → Prop) (results : α → Prop) (traced : WalkM (σ × List Reached) α)
    (part : WalkM σ α) : Prop :=
  ∀ state before, ∃ added, trace added ∧
    traced (state.tracing before) = Outcome.tracing (before ++ added) (part state) ∧
    Outcome.Fits results (room ≤ added.length) (part state)

namespace Traces

variable {room depth : Nat} {expected : Node → Prop} {results : α → Prop} {results' : β → Prop}

theorem imp {trace trace' : List Reached → Prop} {results results' : α → Prop} {traced : WalkM (σ × List Reached) α}
    {part : WalkM σ α} (h : Traces room trace results traced part) (hTrace : ∀ added, trace added → trace' added)
    (hResults : ∀ a, results a → results' a) : Traces room trace' results' traced part := by
  intro state before
  obtain ⟨added, hAdded, hTraced, hOutcome⟩ := h state before
  exact ⟨added, hTrace added hAdded, hTraced, hOutcome.imp hResults fun hBroken => hBroken⟩

theorem pure {a : α} (h : results a) :
    Traces (σ := σ) room (Entered depth expected) results (Pure.pure a) (Pure.pure a) := by
  intro state before
  refine ⟨[], .none, ?_, h⟩
  rw [List.append_nil]
  rfl

theorem bind {traced : WalkM (σ × List Reached) α} {part : WalkM σ α} {next : α → WalkM (σ × List Reached) β}
    {next' : α → WalkM σ β} (h : Traces room (Entered depth expected) results traced part)
    (hNext : ∀ a, results a → Traces room (Entered depth expected) results' (next a) (next' a)) :
    Traces room (Entered depth expected) results' (traced >>= next) (part >>= next') := by
  intro state before
  obtain ⟨added, hAdded, hTraced, hOutcome⟩ := h state before
  cases hPart : part state with
  | error broken middle =>
    rw [hPart] at hTraced hOutcome
    rw [bind_error hTraced, bind_error hPart]
    exact ⟨added, hAdded, rfl, hOutcome⟩
  | ok a middle =>
    rw [hPart] at hTraced hOutcome
    obtain ⟨more, hMore, hRest, hLast⟩ := hNext a hOutcome middle (before ++ added)
    rw [bind_ok hTraced, bind_ok hPart, hRest, List.append_assoc]
    refine ⟨added ++ more, hAdded.append hMore, rfl, hLast.imp (fun _ h => h) fun hBroken => ?_⟩
    rw [List.length_append]
    omega

theorem mapM {visit : Node → WalkM (σ × List Reached) Node} {visit' : Node → WalkM σ Node} (nodes : List Node)
    (hVisit : ∀ node ∈ nodes, Traces room (Entered depth expected) (fun _ => True) (visit node) (visit' node)) :
    Traces room (Entered depth expected) (fun _ => True) (nodes.mapM visit) (nodes.mapM visit') := by
  induction nodes with
  | nil => exact .pure trivial
  | cons node rest ih =>
    obtain ⟨hFirst, hRest⟩ := List.forall_mem_cons.mp hVisit
    rw [List.mapM_cons, List.mapM_cons]
    exact hFirst.bind fun _ _ => (ih hRest).bind fun _ _ => .pure trivial

section slots

variable {visit : Node → WalkM (σ × List Reached) Node} {visit' : Node → WalkM σ Node} {node : Node}

theorem visitChild {slot : Slot} (hVisit : ∀ child, node.child? slot = some child →
      Traces room (Entered depth expected) (fun _ => True) (visit child) (visit' child)) :
    Traces room (Entered depth expected)
      (fun after => (∀ other, other ≠ slot → after.child? other = node.child? other) ∧
        ∀ other, after.children other = node.children other)
      (visitChild visit node slot) (visitChild visit' node slot) := by
  unfold Walk.visitChild
  cases hChild : node.child? slot with
  | none => exact .pure ⟨fun _ _ => rfl, fun _ => rfl⟩
  | some child =>
    refine (hVisit child hChild).bind fun after _ => .pure ⟨?_, Node.children_setChild node after slot⟩
    exact fun _ hOther => Node.child?_setChild_of_ne node after hOther

theorem visitChildren {slot : Slot} (hVisit : ∀ child ∈ node.children slot,
      Traces room (Entered depth expected) (fun _ => True) (visit child) (visit' child)) :
    Traces room (Entered depth expected)
      (fun after => ∀ other, other ≠ slot → after.children other = node.children other)
      (visitChildren visit node slot) (visitChildren visit' node slot) := by
  unfold Walk.visitChildren
  refine (mapM _ hVisit).bind fun nodes _ => .pure ?_
  exact fun _ hOther => Node.children_setChildren_of_ne node nodes hOther

theorem foldlM_visitChild (node : Node) {slots : List Slot} (hNodup : slots.Nodup)
    (hVisit : ∀ slot ∈ slots, ∀ child, node.child? slot = some child →
      Traces room (Entered depth expected) (fun _ => True) (visit child) (visit' child)) :
    Traces room (Entered depth expected) (fun after => ∀ other, after.children other = node.children other)
      (slots.foldlM (Walk.visitChild visit) node) (slots.foldlM (Walk.visitChild visit') node) := by
  induction slots generalizing node with
  | nil => exact .pure fun _ => rfl
  | cons slot rest ih =>
    obtain ⟨hNotMem, hNodup⟩ := List.nodup_cons.mp hNodup
    obtain ⟨hFirst, hRest⟩ := List.forall_mem_cons.mp hVisit
    rw [List.foldlM_cons, List.foldlM_cons]
    refine (visitChild hFirst).bind fun after ⟨hChild, hChildren⟩ => ?_
    -- The slots whose turn comes later hold what they held before.
    refine (ih after hNodup fun other hOther child hOtherChild => ?_).imp (fun _ h => h) fun last hLast other =>
      (hLast other).trans (hChildren other)
    rw [hChild other (ne_of_mem_of_not_mem hOther hNotMem)] at hOtherChild
    exact hRest other hOther child hOtherChild

theorem foldlM_visitChildren (node : Node) {slots : List Slot} (hNodup : slots.Nodup)
    (hVisit : ∀ slot ∈ slots, ∀ child ∈ node.children slot,
      Traces room (Entered depth expected) (fun _ => True) (visit child) (visit' child)) :
    Traces room (Entered depth expected) (fun _ => True)
      (slots.foldlM (Walk.visitChildren visit) node) (slots.foldlM (Walk.visitChildren visit') node) := by
  induction slots generalizing node with
  | nil => exact .pure trivial
  | cons slot rest ih =>
    obtain ⟨hNotMem, hNodup⟩ := List.nodup_cons.mp hNodup
    obtain ⟨hFirst, hRest⟩ := List.forall_mem_cons.mp hVisit
    rw [List.foldlM_cons, List.foldlM_cons]
    refine (visitChildren hFirst).bind fun after hAfter => ih after hNodup fun other hOther child hChild => ?_
    rw [hAfter other (ne_of_mem_of_not_mem hOther hNotMem)] at hChild
    exact hRest other hOther child hChild

end slots

end Traces

/-- The trace of a walk from a node, down to any depth. -/
theorem traces_visit (handlers : Handlers σ) (limit depth : Nat) (node : Node) :
    Traces limit (Walked depth node) (fun _ => True) (visit handlers.traced limit depth node)
      (visit handlers limit depth node) := by
  induction limit generalizing depth node with
  | zero =>
    intro state before
    refine ⟨[], .none, ?_, Nat.le_refl 0⟩
    rw [List.append_nil]
    rfl
  | succ limit ih =>
    intro state before
    unfold visit
    cases hKind : node.kind? with
    | none =>
      refine ⟨[], .none, ?_, trivial⟩
      rw [List.append_nil]
      rfl
    | some kind =>
      let key := kind.schema.handler
      let dispatched := (handlers.act key ⟨kind, depth⟩ node).run state
      let entry : Reached := ⟨key, ⟨kind, depth⟩, node, dispatched.1⟩
      have hVisit (child : Node) (hChild : entry.Holds child) :
          Traces limit (Entered (depth + 1) entry.Holds) (fun _ => True)
            (visit handlers.traced limit (depth + 1) child) (visit handlers limit (depth + 1) child) :=
        (ih (depth + 1) child).imp (fun _ h => h.entered_of hChild) fun _ h => h
      obtain ⟨hSingle, hMulti, -⟩ := List.nodup_append.mp kind.nodup_slots
      have hBelow := (Traces.foldlM_visitChild entry.after hSingle fun slot hSlot child hChild =>
          hVisit child (.inl ⟨slot, hSlot, hChild⟩)).bind fun node hNode =>
        Traces.foldlM_visitChildren node hMulti fun slot hSlot child hChild =>
          hVisit child (.inr ⟨slot, hSlot, hNode slot ▸ hChild⟩)
      obtain ⟨added, hAdded, hTraced, hOutcome⟩ := hBelow dispatched.2 (before ++ [entry])
      simp only
      rw [bind_ok (dispatch_eq handlers.traced ⟨kind, depth⟩ node (state.tracing before)),
        bind_ok (dispatch_eq handlers ⟨kind, depth⟩ node state)]
      refine ⟨entry :: added, .entered rfl rfl ⟨hKind, rfl⟩ hAdded, ?_, ?_⟩
      · rw [← List.append_cons] at hTraced
        exact hTraced
      · exact hOutcome.imp (fun _ h => h) Nat.succ_le_succ

/-! ## Going deeper -/

/-- Whether a part of a traced walk only adds to the trace, and one that may go further ends in the same way or adds
more than it, where it is broken off. -/
def Continues (part further : WalkM (σ × List Reached) α) : Prop :=
  ∀ state, state.log.2 <+: (Outcome.state (part state)).log.2 ∧
    (Outcome.state (part state)).log.2 <+: (Outcome.state (further state)).log.2 ∧
    (further state = part state ∨ ∃ cut, part state = .error .depthExceeded cut)

namespace Continues

theorem pure (a : α) : Continues (σ := σ) (Pure.pure a) (Pure.pure a) :=
  fun _ => ⟨List.prefix_rfl, List.prefix_rfl, .inl rfl⟩

theorem bind {part further : WalkM (σ × List Reached) α} {next next' : α → WalkM (σ × List Reached) β}
    (h : Continues part further) (hNext : ∀ a, Continues (next a) (next' a)) :
    Continues (part >>= next) (further >>= next') := by
  intro state
  obtain ⟨hAdds, hMore, hFurther⟩ := h state
  cases hPart : part state with
  | ok a middle =>
    rw [hPart] at hAdds hFurther
    obtain hSame | ⟨_, hCut⟩ := hFurther
    · rw [bind_ok hPart, bind_ok hSame]
      exact ⟨hAdds.trans (hNext a middle).1, (hNext a middle).2⟩
    · cases hCut
  | error broken middle =>
    rw [hPart] at hAdds hMore
    rw [bind_error hPart]
    refine ⟨hAdds, hMore.trans ?_, .inr ⟨middle, rfl⟩⟩
    -- What may go further ends where the rest of it only adds to the trace, or is broken off as well.
    cases hEnd : further state with
    | error => rw [bind_error hEnd]; exact List.prefix_rfl
    | ok a last =>
      obtain ⟨hLast, hLast', -⟩ := hNext a last
      rw [bind_ok hEnd]
      exact hLast.trans hLast'

theorem foldlM {step step' : Node → Slot → WalkM (σ × List Reached) Node} (slots : List Slot)
    (hStep : ∀ node slot, Continues (step node slot) (step' node slot)) (node : Node) :
    Continues (slots.foldlM step node) (slots.foldlM step' node) := by
  induction slots generalizing node with
  | nil => exact .pure node
  | cons slot rest ih =>
    rw [List.foldlM_cons, List.foldlM_cons]
    exact (hStep node slot).bind ih

theorem mapM {visit visit' : Node → WalkM (σ × List Reached) Node}
    (hVisit : ∀ node, Continues (visit node) (visit' node)) (nodes : List Node) :
    Continues (nodes.mapM visit) (nodes.mapM visit') := by
  induction nodes with
  | nil => exact .pure []
  | cons node rest ih =>
    rw [List.mapM_cons, List.mapM_cons]
    exact (hVisit node).bind fun _ => ih.bind fun _ => .pure _

end Continues

/-- A walk that may go deeper goes the same way, and on from where the other is broken off. -/
theorem continues_visit (handlers : Handlers σ) {limit limit' : Nat} (hLimit : limit ≤ limit') (depth : Nat)
    (node : Node) :
    Continues (visit handlers.traced limit depth node) (visit handlers.traced limit' depth node) := by
  induction limit generalizing limit' depth node with
  | zero =>
    intro state
    obtain ⟨added, -, hTraced, -⟩ := traces_visit handlers limit' depth node state.untraced state.log.2
    refine ⟨List.prefix_rfl, ?_, .inr ⟨state, rfl⟩⟩
    have hTrace := congrArg (fun outcome => (Outcome.state outcome).log.2) hTraced
    exact ⟨added, (hTrace.trans (Outcome.trace_tracing ..)).symm⟩
  | succ limit ih =>
    obtain ⟨limit', rfl⟩ := Nat.exists_eq_add_one_of_ne_zero (Nat.ne_of_gt (Nat.lt_of_lt_of_le limit.succ_pos hLimit))
    have hVisit (child : Node) := ih (Nat.le_of_succ_le_succ hLimit) (depth + 1) child
    unfold visit
    cases node.kind? with
    | none => exact fun _ => ⟨List.prefix_rfl, List.prefix_rfl, .inl rfl⟩
    | some kind =>
      have hDispatch : Continues (dispatch handlers.traced ⟨kind, depth⟩ node)
          (dispatch handlers.traced ⟨kind, depth⟩ node) :=
        fun _ => ⟨List.prefix_append _ _, List.prefix_rfl, .inl rfl⟩
      refine hDispatch.bind fun after => (Continues.foldlM _ (fun node slot => ?_) after).bind
        (Continues.foldlM _ fun node slot => ?_)
      · unfold visitChild
        cases node.child? slot with
        | none => exact .pure node
        | some child => exact (hVisit child).bind fun _ => .pure _
      · unfold visitChildren
        exact (Continues.mapM hVisit _).bind fun _ => .pure _

/-- Whatever the handlers do, the nodes that a walk has reached at any point are disciplined. A walk to a limited depth
goes as the one that is traced, and is either the whole walk, or is broken off after it has reached at least as many
nodes as the limit; what a walk to a greater depth reaches then starts with them. -/
theorem reached_is_disciplined (handlers : Handlers σ) (root : Node) (start : WalkState σ) :
    let walk (limit : Nat) := visit handlers limit 0 root start
    let traced (limit : Nat) := visit handlers.traced limit 0 root (start.tracing [])
    let trace (limit : Nat) : List Reached := (Outcome.state (traced limit)).log.2
    ∀ limit, traced limit = Outcome.tracing (trace limit) (walk limit) ∧ Disciplined root (trace limit) ∧
      (∀ further, limit ≤ further → trace limit <+: trace further) ∧
      ((∃ tree final, ∀ further, limit ≤ further → walk further = .ok tree final ∧ trace further = trace limit) ∨
        ∃ final, walk limit = .error .depthExceeded final ∧ limit ≤ (trace limit).length) := by
  intro walk traced trace
  have hTraced (limit : Nat) : Walked 0 root (trace limit) ∧ traced limit = Outcome.tracing (trace limit) (walk limit) ∧
      Outcome.Fits (fun _ => True) (limit ≤ (trace limit).length) (walk limit) := by
    obtain ⟨added, hWalked, hTraced, hOutcome⟩ := traces_visit handlers limit 0 root start []
    have hTrace : trace limit = added :=
      (congrArg (fun outcome => (Outcome.state outcome).log.2) hTraced).trans (Outcome.trace_tracing ..)
    rw [hTrace]
    exact ⟨hWalked, hTraced, hOutcome⟩
  intro limit
  obtain ⟨hWalked, hPlain, hOutcome⟩ := hTraced limit
  refine ⟨hPlain, hWalked.disciplined, fun further hFurther => ?_, ?_⟩
  · exact (continues_visit handlers hFurther 0 root (start.tracing [])).2.1
  · cases hWalk : walk limit with
    | error broken final =>
      rw [hWalk] at hOutcome
      exact .inr ⟨final, rfl, hOutcome⟩
    | ok tree final =>
      refine .inl ⟨tree, final, fun further hFurther => ?_⟩
      rw [hWalk] at hPlain
      obtain hSame | ⟨_, hCut⟩ := (continues_visit handlers hFurther 0 root (start.tracing [])).2.2
      · exact Outcome.tracing_injective ((hTraced further).2.1.symm.trans (hSame.trans hPlain))
      · cases hPlain.symm.trans hCut

-- A conditional that its handler makes a loop is walked by the schema of conditionals: of the loop, only the footer is
-- entered.
example :
    let place : Location := default
    let call (name : String) (arguments : List Node) : Node := .call place name arguments
    let root : Node := .conditional place (.clause place .ifClause (call "if" []) []) [] none (call "endif" [])
    let loop : Node := .block place .whileLoop (call "while" []) [call "message" []] (call "endwhile" [call "a" []])
    let handlers : Handlers Unit := Handlers.none.register .conditional fun _ _ => pure loop
    ((Outcome.state (visit handlers.traced 5 0 root ⟨.empty, .start false, (), []⟩)).log.2.map fun entry =>
      (entry.visit.depth, entry.visit.kind, entry.before.label?)) =
        [(0, .conditional, none), (1, .call, some "endwhile"), (2, .call, some "a")] := by
  rfl

end Walk
end Listfile
