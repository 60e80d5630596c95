import Listfile.Proofs.Resolve.Reports
import Listfile.Proofs.Walk.Simulation
/-! # Strict mode only observes

Whether reports are kept makes no difference to a walk if no handler lets it make one: the walk ends or does not end
alike, with the same tree, symbols and log, and calls the same handlers. A walk that is not strict reports nothing as
long as no handler replaces the channel that drops reports. The handlers that resolve inclusions are of this kind, since
what they do is a function of the node and the symbols, and all that they do to the channel is to report.
-/
namespace Listfile
set_option autoImplicit false

variable {σ : Type}

/-- States that differ at most in what has been reported and in whether reports are kept. -/
structure WalkState.SameEffects (s t : WalkState σ) : Prop where
  symbols : s.symbols = t.symbols
  log : s.log = t.log

theorem WalkState.sameEffects_start (seed : SymbolTable) (log : σ) (strict strict' : Bool) :
    SameEffects (⟨seed, .start strict, log⟩ : WalkState σ) ⟨seed, .start strict', log⟩ := ⟨rfl, rfl⟩

namespace Handlers

/-- What a handler makes of its node, the symbols and the log is the same whatever the channel for reports is. -/
def IgnoreReports (handlers : Handlers σ) : Prop :=
  ∀ key handler, handlers key = some handler → handler.Agree Eq WalkState.SameEffects handler

/-- A channel that drops reports is left as it is. -/
def KeepSilent (handlers : Handlers σ) : Prop :=
  ∀ key handler, handlers key = some handler → ∀ visit node state, state.diagnostics = .start false →
    ((handler visit node).run state).2.diagnostics = .start false

/-- All that a handler does to the channel is to report. -/
def OnlyReport (handlers : Handlers σ) : Prop :=
  ∀ key handler, handlers key = some handler → ∀ visit node state, ∃ reports : List Diagnostic,
    ((handler visit node).run state).2.diagnostics = reports.foldl Diagnostics.report state.diagnostics

variable {handlers : Handlers σ}

theorem OnlyReport.keepSilent (h : handlers.OnlyReport) : handlers.KeepSilent := by
  intro key handler hHandler visit node state hSilent
  obtain ⟨reports, hReports⟩ := h key handler hHandler visit node state
  rw [hReports, hSilent]
  clear hReports
  induction reports with
  | nil => rfl
  | cons first rest ih => exact ih

theorem IgnoreReports.simulation (h : handlers.IgnoreReports) :
    handlers.Simulation Eq WalkState.SameEffects handlers := by
  apply simulation_of_forall Node.congruence_eq
  · rintro a _ s t rfl _ hStates
    exact ⟨hStates.symbols, hStates.log⟩
  · exact h

theorem KeepSilent.simulation (h : handlers.KeepSilent) :
    handlers.Simulation Eq (fun s t => s = t ∧ s.diagnostics = .start false) handlers := by
  apply simulation_of_forall Node.congruence_eq
  · rintro a _ s _ rfl _ ⟨rfl, hSilent⟩
    refine ⟨rfl, ?_⟩
    rw [Walk.report, hSilent]
    rfl
  · rintro key handler hHandler visit a _ s _ rfl ⟨rfl, hSilent⟩
    exact ⟨rfl, rfl, h key handler hHandler visit a s hSilent⟩

end Handlers

theorem Dispatch.eq_of_agrees {calls calls' : List Dispatch} (h : List.Forall₂ (Agrees Eq) calls calls') :
    calls = calls' := by
  rw [← List.forall₂_eq_eq_eq]
  refine h.imp fun call call' hAgrees => ?_
  obtain ⟨_, _, _⟩ := call
  obtain ⟨rfl, rfl, rfl⟩ := hAgrees
  rfl

namespace Resolve

variable (command : String)

/-! ## What the handlers do -/

/-- What the handler for calls reports. -/
def callReport? (symbols : SymbolTable) : Node → Option Diagnostic
  | .call place name arguments => report? command symbols (.call place name arguments)
  | _ => none

theorem run_define (visit : Visit) (node : Node) (state : WalkState σ) :
    (define command visit node).run state = (node, ⟨definedBy command state.symbols node,
      (callReport? command state.symbols node).elim state.diagnostics state.diagnostics.report, state.log⟩) := by
  have hRun : (define command visit node).run state = (node, Assignment.handle command node state) := rfl
  rw [hRun]
  cases node with
  | call place name arguments =>
    rw [← symbols_record]
    unfold callReport? report? Assignment.handle
    cases h : (Assignment.record command name arguments state.symbols).1 <;> simp only [h] <;> rfl
  | _ => rfl

theorem run_substitute (visit : Visit) (node : Node) (state : WalkState σ) :
    (substitute visit node).run state = ((node.substitute state.symbols).1, ⟨state.symbols,
      (node.substitute state.symbols).2.elim state.diagnostics state.diagnostics.report, state.log⟩) := by
  have hRun : (substitute visit node).run state = ((node.substitute state.symbols).1,
    (node.substitute state.symbols).2.elim state (Walk.report · state)) := rfl
  rw [hRun]
  cases (node.substitute state.symbols).2 <;> rfl

theorem ignoreReports_handlers : (handlers (σ := σ) command).IgnoreReports := by
  apply Handlers.forall_register
  · apply Handlers.forall_register
    · rintro _ _ ⟨⟩
    · rintro visit node _ s t rfl hStates
      rw [run_define, run_define, hStates.symbols, hStates.log]
      exact ⟨rfl, rfl, rfl⟩
  · rintro visit node _ s t rfl hStates
    rw [run_substitute, run_substitute, hStates.symbols, hStates.log]
    exact ⟨rfl, rfl, rfl⟩

theorem onlyReport_handlers : (handlers (σ := σ) command).OnlyReport := by
  have hReport (diagnostics : Diagnostics) (diagnostic? : Option Diagnostic) :
      ∃ reports : List Diagnostic,
        diagnostic?.elim diagnostics diagnostics.report = reports.foldl Diagnostics.report diagnostics := by
    cases diagnostic? with
    | none => exact ⟨[], rfl⟩
    | some diagnostic => exact ⟨[diagnostic], rfl⟩
  apply Handlers.forall_register
  · apply Handlers.forall_register
    · rintro _ _ ⟨⟩
    · intro visit node state
      rw [run_define]
      exact hReport _ _
  · intro visit node state
    rw [run_substitute]
    exact hReport _ _

theorem keepSilent_handlers : (handlers (σ := σ) command).KeepSilent := (onlyReport_handlers command).keepSilent

end Resolve

namespace Walk

variable {handlers : Handlers σ} {root : Node} {seed : SymbolTable} {log : σ}

theorem diagnostics_of_keepSilent (h : handlers.KeepSilent) {result : Result σ}
    (hYields : Yields handlers root ⟨seed, .start false, log⟩ result) : result.state.diagnostics = .start false := by
  obtain ⟨_, -, -, ⟨-, hSilent⟩, -⟩ := hYields.follow h.simulation rfl ⟨rfl, rfl⟩
  exact hSilent

theorem yields_strict (h : handlers.IgnoreReports) {strict lenient : Result σ}
    (hStrict : Yields handlers root ⟨seed, .start true, log⟩ strict)
    (hLenient : Yields handlers root ⟨seed, .start false, log⟩ lenient) :
    strict.tree = lenient.tree ∧ strict.state.SameEffects lenient.state ∧ strict.calls = lenient.calls := by
  obtain ⟨-, hRelated⟩ := yields_of_simulation h.simulation rfl (WalkState.sameEffects_start seed log true false)
  obtain ⟨hTree, hEffects, hCalls⟩ := hRelated strict lenient hStrict hLenient
  exact ⟨hTree, hEffects, Dispatch.eq_of_agrees hCalls⟩

end Walk

theorem Resolve.resolve_strict (command : String) (seed : SymbolTable) (root : Node) :
    let strict := resolve command true seed root
    let lenient := resolve command false seed root
    strict.tree = lenient.tree ∧ strict.symbols = lenient.symbols ∧ lenient.diagnostics = [] := by
  have hGrow := nonGrowing_handlers (σ := Unit) command
  obtain ⟨_, hStrict⟩ := Walk.exists_yields_run hGrow root ⟨seed, .start true, ()⟩
  obtain ⟨_, hLenient⟩ := Walk.exists_yields_run hGrow root ⟨seed, .start false, ()⟩
  obtain ⟨hTree, hEffects, -⟩ := Walk.yields_strict (ignoreReports_handlers command) hStrict hLenient
  have hSilent := Walk.diagnostics_of_keepSilent (keepSilent_handlers command) hLenient
  exact ⟨hTree, hEffects.symbols, congrArg Diagnostics.records hSilent⟩

namespace Walk

/-- Of a strict walk and one that is not strict, both end or neither does, if what the handlers make of nodes, symbols and
log does not depend on the channel. They leave the same tree, the same symbols in the same order and the same log, and
make the same calls in the same order. If no handler changes a channel that drops reports either, the walk that is not
strict reports nothing. The handlers that resolve inclusions meet both conditions, whatever the command. -/
theorem strict_only_observes {handlers : Handlers σ} (hIgnore : handlers.IgnoreReports) (root : Node)
    (seed : SymbolTable) (log : σ) :
    let start (strict : Bool) : WalkState σ := ⟨seed, .start strict, log⟩
    ((∃ result, Yields handlers root (start true) result) ↔ ∃ result, Yields handlers root (start false) result) ∧
    (∀ strict lenient, Yields handlers root (start true) strict → Yields handlers root (start false) lenient →
      strict.tree = lenient.tree ∧ strict.state.symbols = lenient.state.symbols ∧
      strict.state.log = lenient.state.log ∧ strict.calls = lenient.calls) ∧
    (handlers.KeepSilent → ∀ lenient, Yields handlers root (start false) lenient →
      lenient.state.diagnostics.records = []) ∧
    ∀ command, (Resolve.handlers (σ := σ) command).IgnoreReports ∧ (Resolve.handlers (σ := σ) command).KeepSilent ∧
      ∀ seed root,
        let strict := resolve command true seed root
        let lenient := resolve command false seed root
        strict.tree = lenient.tree ∧ strict.symbols = lenient.symbols ∧ lenient.diagnostics = [] := by
  intro start
  refine ⟨?_, ?_, ?_, fun command => ⟨?_, ?_, Resolve.resolve_strict command⟩⟩
  · exact (yields_of_simulation hIgnore.simulation rfl (WalkState.sameEffects_start seed log true false)).1
  · intro strict lenient hStrict hLenient
    obtain ⟨hTree, ⟨hSymbols, hLog⟩, hCalls⟩ := yields_strict hIgnore hStrict hLenient
    exact ⟨hTree, hSymbols, hLog, hCalls⟩
  · intro hSilent lenient hLenient
    rw [diagnostics_of_keepSilent hSilent hLenient]
    rfl
  · exact Resolve.ignoreReports_handlers command
  · exact Resolve.keepSilent_handlers command

/-- A script with a node of unknown kind, a reference to no name and a definition, resolved with and without reports. -/
theorem strict_only_observes_of_script :
    let place : Location := default
    let word (text : String) : Node := .word place .unquoted text
    let root : Node := .toplevel place [.unrecognized place "Comment" .null, .inclusion place "${A}.cmake" [],
      .call place "set" [word "A", word "b"], .inclusion place "${A}.cmake" []]
    let start (strict : Bool) : WalkState Unit := ⟨.empty, .start strict, ()⟩
    let handlers : Handlers Unit := Resolve.handlers "set"
    ∃ strict lenient : Result Unit, Yields handlers root (start true) strict ∧
      Yields handlers root (start false) lenient ∧ strict.calls = lenient.calls ∧
      lenient.state.diagnostics.records = [] ∧ (resolve "set" true .empty root).diagnostics =
        [.unrecognizedNode "Comment" place.span, .undefinedName "A" place.span] := by
  intro place word root start handlers
  obtain ⟨_, hStrict⟩ := exists_yields_run (Resolve.nonGrowing_handlers "set") root (start true)
  obtain ⟨_, hLenient⟩ := exists_yields_run (Resolve.nonGrowing_handlers "set") root (start false)
  have hIgnore : handlers.IgnoreReports := Resolve.ignoreReports_handlers "set"
  have hSilent : handlers.KeepSilent := Resolve.keepSilent_handlers "set"
  obtain ⟨-, hSame, hRecords, -⟩ := strict_only_observes hIgnore root .empty ()
  obtain ⟨-, -, -, hCalls⟩ := hSame _ _ hStrict hLenient
  have hReports : (resolve "set" true .empty root).diagnostics =
      [.unrecognizedNode "Comment" place.span, .undefinedName "A" place.span] := by decide +kernel
  exact ⟨_, _, hStrict, hLenient, hCalls, hRecords hSilent _ hLenient, hReports⟩

/-- Puts a channel in place that keeps reports. -/
def keepReports : Handler σ := fun _ node => do
  modify fun state => { state with diagnostics := .start true }
  return node

/-- That handlers do not depend on the channel is not enough: one that replaces it at the root makes a walk that is not
strict keep the reports from there on. -/
theorem reports_of_replaced_channel :
    let handlers : Handlers Unit := Handlers.none.register .toplevel keepReports
    let root : Node := .toplevel default [.unrecognized default "Comment" .null]
    let start : WalkState Unit := ⟨.empty, .start false, ()⟩
    handlers.IgnoreReports ∧ ∃ lenient, Yields handlers root start lenient ∧
      lenient.state.diagnostics.records = [.unrecognizedNode "Comment" .origin] := by
  intro handlers root start
  constructor
  · apply Handlers.forall_register
    · rintro _ _ ⟨⟩
    · rintro visit node _ s t rfl hStates
      exact ⟨rfl, hStates.symbols, hStates.log⟩
  · exact ⟨⟨root, ⟨.empty, ⟨true, [.unrecognizedNode "Comment" .origin]⟩, ()⟩, [⟨.toplevel, ⟨.toplevel, 0⟩, root⟩]⟩,
      ⟨2, rfl⟩, rfl⟩

end Walk
end Listfile
