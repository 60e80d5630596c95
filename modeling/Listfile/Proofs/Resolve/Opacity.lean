import Listfile.Proofs.Resolve.Strictness
import Listfile.Proofs.Tree.Exported
import Listfile.Proofs.Tree.Hidden
/-! # Nodes of unknown kind are opaque

What nodes of unknown kind hold makes no difference to a walk if no handler lets it make one: handlers are called for
the same kinds of nodes at the same depths, and all that differs is the tags that are reported. Resolution keeps what
such nodes hold, and an export of the resolved tree has it where it was.
-/
namespace Listfile
set_option autoImplicit false

variable {σ : Type}

/-- Trees that are equal but for what nodes of unknown kind hold. -/
def Node.Alike (a b : Node) : Prop := a.hide = b.hide

/-- States that are equal but for the tags of nodes of unknown kind that have been reported. -/
structure WalkState.Alike (s t : WalkState σ) : Prop where
  symbols : s.symbols = t.symbols
  diagnostics : s.diagnostics.hide = t.diagnostics.hide
  log : s.log = t.log

theorem Node.congruence_alike : Node.Congruence Alike := by
  constructor
  · intro a b hAlike
    rw [← kind?_hide, hAlike, kind?_hide]
  · intro a b hAlike slot
    have hChild := congrArg (child? slot) hAlike
    rw [child?_hide, child?_hide] at hChild
    cases hA : a.child? slot <;> cases hB : b.child? slot <;> rw [hA, hB] at hChild
    · exact .none
    · cases hChild
    · cases hChild
    · exact .some (Option.some.inj hChild)
  · intro a b hAlike slot
    have hChildren := congrArg (children slot) hAlike
    rw [children_hide, children_hide, ← List.forall₂_eq_eq_eq, List.forall₂_map_left_iff,
      List.forall₂_map_right_iff] at hChildren
    exact hChildren
  · intro a b c d hAlike hChild slot
    rw [Alike, hide_setChild, hide_setChild, hAlike, hChild]
  · intro a b cs ds hAlike hChildren slot
    have hMap : cs.map hide = ds.map hide := by
      rw [← List.forall₂_eq_eq_eq, List.forall₂_map_left_iff, List.forall₂_map_right_iff]
      exact hChildren
    rw [Alike, hide_setChildren, hide_setChildren, hAlike, hMap]

theorem WalkState.Alike.report {s t : WalkState σ} (h : s.Alike t) {diagnostic diagnostic' : Diagnostic}
    (hHide : diagnostic.hide = diagnostic'.hide) : (Walk.report diagnostic s).Alike (Walk.report diagnostic' t) := by
  refine ⟨h.symbols, ?_, h.log⟩
  rw [Walk.report, Walk.report, Diagnostics.hide_report, Diagnostics.hide_report, h.diagnostics, hHide]

namespace Handlers

/-- What a handler makes of its node and the state does not depend on what nodes of unknown kind hold. -/
def IgnoreHidden (handlers : Handlers σ) : Prop :=
  ∀ key handler, handlers key = some handler → handler.Agree Node.Alike WalkState.Alike handler

theorem IgnoreHidden.simulation {handlers : Handlers σ} (h : handlers.IgnoreHidden) :
    handlers.Simulation Node.Alike WalkState.Alike handlers := by
  apply simulation_of_forall Node.congruence_alike
  · intro a b s t hAlike _ hStates
    refine hStates.report ?_
    rw [Diagnostic.hide, Diagnostic.hide, ← a.span_hide, hAlike, b.span_hide]
  · exact h

end Handlers

namespace Resolve

variable (command : String)

/-! ## The handlers -/

theorem literal?_hide (node : Node) : node.hide.literal? = node.literal? := by cases node <;> rfl

theorem record_hideAll (name : String) (arguments : List Node) (symbols : SymbolTable) :
    Assignment.record command name (Node.hideAll arguments) symbols =
      Assignment.record command name arguments symbols := by
  refine record_congr rfl ?_ symbols
  rw [Node.hideAll_eq, List.map_map]
  exact List.map_congr_left fun node _ => literal?_hide node

theorem definedBy_hide (symbols : SymbolTable) (node : Node) :
    definedBy command symbols node.hide = definedBy command symbols node := by
  cases node with
  | call => rw [Node.hide, ← symbols_record, ← symbols_record, record_hideAll]
  | _ => rfl

theorem callReport?_hide (symbols : SymbolTable) (node : Node) :
    callReport? command symbols node.hide = callReport? command symbols node := by
  cases node with
  | call => rw [Node.hide, callReport?, callReport?, report?, report?, record_hideAll]
  | _ => rfl

theorem substitute_hide (symbols : SymbolTable) (node : Node) :
    node.hide.substitute symbols = ((node.substitute symbols).1.hide, (node.substitute symbols).2) := by
  cases node with
  | inclusion place filename options =>
    unfold Node.hide Node.substitute
    cases h : expand filename symbols <;> simp only [h]
  | _ => rfl

theorem hide_elim_report {diagnostics diagnostics' : Diagnostics} (h : diagnostics.hide = diagnostics'.hide)
    (diagnostic? : Option Diagnostic) : (diagnostic?.elim diagnostics diagnostics.report).hide =
      (diagnostic?.elim diagnostics' diagnostics'.report).hide := by
  cases diagnostic? with
  | none => exact h
  | some diagnostic =>
    rw [Option.elim_some, Option.elim_some, Diagnostics.hide_report, Diagnostics.hide_report, h]

theorem ignoreHidden_handlers : (handlers (σ := σ) command).IgnoreHidden := by
  apply Handlers.forall_register
  · apply Handlers.forall_register
    · rintro _ _ ⟨⟩
    · intro visit a b s t hAlike hStates
      have hDefined := definedBy_hide command s.symbols a
      have hReport := callReport?_hide command s.symbols a
      rw [hAlike, definedBy_hide] at hDefined
      rw [hAlike, callReport?_hide] at hReport
      rw [run_define, run_define, ← hStates.symbols, ← hStates.log, ← hDefined, ← hReport]
      exact ⟨hAlike, rfl, hide_elim_report hStates.diagnostics _, rfl⟩
  · intro visit a b s t hAlike hStates
    have hSubstitute := substitute_hide s.symbols a
    rw [hAlike, substitute_hide] at hSubstitute
    obtain ⟨hNode, hReport⟩ := Prod.mk.inj hSubstitute
    rw [run_substitute, run_substitute, ← hStates.symbols, ← hStates.log, hReport]
    exact ⟨hNode.symm, rfl, hide_elim_report hStates.diagnostics _, rfl⟩

/-! ## What is kept -/

theorem at_unrecognized_resolve (strict : Bool) (seed : SymbolTable) (root : Node) (path : Path)
    (place : Location) (tag : String) (payload : Json) :
    (resolve command strict seed root).tree.At path (.unrecognized place tag payload) ↔
      root.At path (.unrecognized place tag payload) := by
  rw [tree_resolve, Node.at_renameInclusions]
  constructor
  · rintro ⟨before, hAt, hEq⟩
    rw [eq_comm, Node.renameInclusions_eq_unrecognized] at hEq
    rwa [hEq] at hAt
  · intro hAt
    exact ⟨_, hAt, rfl⟩

end Resolve

namespace Walk

/-- Two walks over trees that are equal but for what nodes of unknown kind hold, with handlers that do not look at it:
both end or neither does, the same handlers are called for the same kinds at the same depths, the symbols and the log
are the same in the end, and so are the reports, up to the tags of such nodes. The handlers that resolve inclusions
are among those that do not look. Resolution keeps every node of unknown kind where it is, with its tag and what it
holds, and the object that an export has there holds the same value under the same tag. -/
theorem hidden_is_opaque {handlers : Handlers σ} (hIgnore : handlers.IgnoreHidden) {root root' : Node}
    (hAlike : root.Alike root') (seed : SymbolTable) (strict : Bool) (log : σ) :
    let start : WalkState σ := ⟨seed, .start strict, log⟩
    (((∃ result, Yields handlers root start result) ↔ ∃ result, Yields handlers root' start result) ∧
      ∀ result result', Yields handlers root start result → Yields handlers root' start result' →
        List.Forall₂ (Dispatch.Agrees Node.Alike) result.calls result'.calls ∧
        result.tree.Alike result'.tree ∧ result.state.symbols = result'.state.symbols ∧
        result.state.log = result'.state.log ∧
        result.state.diagnostics.records.map Diagnostic.hide = result'.state.diagnostics.records.map Diagnostic.hide) ∧
    ∀ command, (Resolve.handlers (σ := σ) command).IgnoreHidden ∧
      ∀ strict seed root path place tag payload,
        let resolved := (resolve command strict seed root).tree
        let node : Node := .unrecognized place tag payload
        (resolved.At path node ↔ root.At path node) ∧
        (root.At path node → resolved.toJson.at? path = some (.object [("kind", .object [(tag, payload)]),
          ("span", place.span.toJson), ("line", .ofNat place.position.line), ("col", .ofNat place.position.column)])) := by
  intro start
  have hStart : start.Alike start := ⟨rfl, rfl, rfl⟩
  obtain ⟨hEnds, hRelated⟩ := yields_of_simulation hIgnore.simulation hAlike hStart
  refine ⟨⟨hEnds, fun result result' hYields hYields' => ?_⟩, fun command => ⟨?_, ?_⟩⟩
  · obtain ⟨hTree, ⟨hSymbols, hDiagnostics, hLog⟩, hCalls⟩ := hRelated result result' hYields hYields'
    exact ⟨hCalls, hTree, hSymbols, hLog, congrArg Diagnostics.records hDiagnostics⟩
  · exact Resolve.ignoreHidden_handlers command
  · intro strict seed root path place tag payload resolved node
    have hAt := Resolve.at_unrecognized_resolve command strict seed root path place tag payload
    exact ⟨hAt, fun h => Node.at?_toJson (hAt.mpr h)⟩

/-- A script with a node of unknown kind that holds an inclusion, and one with a node that holds nothing in its place. -/
theorem hidden_is_opaque_of_scope :
    let place : Location := default
    let inclusion : Node := .inclusion place "${A}.cmake" []
    let script (tag : String) (payload : Json) : Node := .toplevel place [.unrecognized place tag payload, inclusion]
    let scope := script "BlockScope" inclusion.toJson
    let note := script "Note" .null
    let start : WalkState Unit := ⟨.empty, .start true, ()⟩
    scope.Alike note ∧ ∃ result result', Yields (Resolve.handlers "set") scope start result ∧
      Yields (Resolve.handlers "set") note start result' ∧
      List.Forall₂ (Dispatch.Agrees Node.Alike) result.calls result'.calls ∧
      (resolve "set" true .empty scope).tree.toJson.at? [⟨.statements, 0⟩] =
        some ((Node.unrecognized place "BlockScope" inclusion.toJson).toJson) := by
  intro place inclusion script scope note start
  have hAlike : scope.Alike note := rfl
  obtain ⟨_, hScope⟩ := exists_yields_run (Resolve.nonGrowing_handlers "set") scope start
  obtain ⟨_, hNote⟩ := exists_yields_run (Resolve.nonGrowing_handlers "set") note start
  obtain ⟨⟨-, hRelated⟩, hResolve⟩ :=
    hidden_is_opaque (Resolve.ignoreHidden_handlers "set") hAlike .empty true ()
  obtain ⟨-, hExport⟩ := (hResolve "set").2 true .empty scope [⟨.statements, 0⟩] place "BlockScope" inclusion.toJson
  have hAt : scope.At [⟨.statements, 0⟩] (.unrecognized place "BlockScope" inclusion.toJson) :=
    .step List.mem_cons_self (.here _)
  exact ⟨hAlike, _, _, hScope, hNote, (hRelated _ _ hScope hNote).1, hExport hAt⟩

end Walk
end Listfile
