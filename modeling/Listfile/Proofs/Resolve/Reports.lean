import Listfile.Proofs.Grammar.Origins
import Listfile.Proofs.Reference
import Listfile.Proofs.Resolve.Pass
/-! # What resolution reports

In strict mode, resolution reports the nodes that it passes over: each one once, in the order of the walk, with the
place of the node and the cause. In the tree of a script these places are those of invocations.
-/
namespace Listfile.Resolve
set_option autoImplicit false

variable {command : String}

/-- What is reported of a node that a walk reaches where certain names are not defined. -/
inductive Reports (command : String) (undefined : String → Prop) : Node → Diagnostic → Prop
  | unrecognized (place : Location) (tag : String) (payload : Json) :
    Reports command undefined (.unrecognized place tag payload) (.unrecognizedNode tag place.span)
  | ignored (place : Location) {name : String} {arguments : List Node} (hName : sameCommand name command)
    (hArguments : arguments.length ≠ 2) :
    Reports command undefined (.call place name arguments) (.ignoredAssignment name arguments.length place.span)
  | nonLiteral (place : Location) {name : String} {first second : Node} (hName : sameCommand name command)
    (hLiteral : ¬(first.literal?.isSome ∧ second.literal?.isSome)) :
    Reports command undefined (.call place name [first, second]) (.nonLiteralAssignment name place.span)
  | malformed (place : Location) {filename : String} (options : List String) (hFilename : Unterminated filename) :
    Reports command undefined (.inclusion place filename options) (.malformedReference filename place.span)
  | undefined (place : Location) {filename name : String} (options : List String) (hFilename : RefersTo filename name)
    (hName : undefined name) :
    Reports command undefined (.inclusion place filename options) (.undefinedName name place.span)

theorem Reports.mono {undefined undefined' : String → Prop} {node : Node} {diagnostic : Diagnostic}
    (h : Reports command undefined node diagnostic) (hImp : ∀ name, undefined name → undefined' name) :
    Reports command undefined' node diagnostic := by
  cases h with
  | unrecognized place tag payload => exact .unrecognized place tag payload
  | ignored place hName hArguments => exact .ignored place hName hArguments
  | nonLiteral place hName hLiteral => exact .nonLiteral place hName hLiteral
  | malformed place options hFilename => exact .malformed place options hFilename
  | undefined place options hFilename hName => exact .undefined place options hFilename (hImp _ hName)

theorem Reports.span {undefined : String → Prop} {node : Node} {diagnostic : Diagnostic}
    (h : Reports command undefined node diagnostic) : diagnostic.span = node.span := by
  cases h <;> rfl

/-! ## One node -/

def report? (command : String) (symbols : SymbolTable) (node : Node) : Option Diagnostic :=
  match node with
  | .unrecognized place tag _ => some (.unrecognizedNode tag place.span)
  | .call place name arguments =>
    match (Assignment.record command name arguments symbols).1 with
    | .wrongArity arity => some (.ignoredAssignment name arity place.span)
    | .nonLiteral => some (.nonLiteralAssignment name place.span)
    | .notAssignment | .recorded .. => none
  | .inclusion .. => (node.substitute symbols).2
  | _ => none

section record

variable {name : String} {arguments : List Node} {symbols : SymbolTable}

theorem record_eq_wrongArity {arity : Nat} : (Assignment.record command name arguments symbols).1 = .wrongArity arity ↔
    sameCommand name command ∧ arguments.length ≠ 2 ∧ arity = arguments.length := by
  unfold Assignment.record
  split
  · rename_i hName
    split
    · split <;> simp
    · rename_i hOther
      have hArguments : arguments.length ≠ 2 := by
        intro hLength
        obtain ⟨first, second, rfl⟩ := List.length_eq_two.mp hLength
        exact hOther first second rfl
      simp [hName, hArguments, eq_comm]
  · rename_i hName
    simp [hName]

theorem record_eq_nonLiteral : (Assignment.record command name arguments symbols).1 = .nonLiteral ↔
    sameCommand name command ∧ ∃ first second, arguments = [first, second] ∧
      ¬(first.literal?.isSome ∧ second.literal?.isSome) := by
  unfold Assignment.record
  split
  · rename_i hName
    split
    · rename_i first second
      split
      · rename_i hFirst hSecond
        simp [hFirst, hSecond]
      · rename_i hOther
        have hLiteral : ¬(first.literal?.isSome ∧ second.literal?.isSome) := by
          rintro ⟨hFirst, hSecond⟩
          obtain ⟨key, hFirst⟩ := Option.isSome_iff_exists.mp hFirst
          obtain ⟨value, hSecond⟩ := Option.isSome_iff_exists.mp hSecond
          exact hOther key value hFirst hSecond
        exact iff_of_true rfl ⟨hName, first, second, rfl, hLiteral⟩
    · rename_i hOther
      apply iff_of_false (by simp)
      rintro ⟨-, first, second, rfl, -⟩
      exact hOther first second rfl
  · rename_i hName
    simp [hName]

end record

theorem report?_eq_some {symbols : SymbolTable} {node : Node} {diagnostic : Diagnostic} :
    report? command symbols node = some diagnostic ↔
      Reports command (fun name => symbols.lookup? name = none) node diagnostic := by
  constructor
  · intro h
    cases node with
    | unrecognized place tag payload =>
      cases h
      exact .unrecognized place tag payload
    | call place name arguments =>
      unfold report? at h
      simp only at h
      split at h
      · rename_i hRecord
        cases h
        obtain ⟨hName, hArguments, rfl⟩ := record_eq_wrongArity.mp hRecord
        exact .ignored place hName hArguments
      · rename_i hRecord
        cases h
        obtain ⟨hName, first, second, rfl, hLiteral⟩ := record_eq_nonLiteral.mp hRecord
        exact .nonLiteral place hName hLiteral
      · cases h
      · cases h
    | inclusion place filename options =>
      unfold report? Node.substitute at h
      simp only at h
      split at h
      · cases h
      · cases h
      · rename_i hExpand
        cases h
        exact .malformed place options (expand_eq_malformed.mp hExpand)
      · rename_i hExpand
        cases h
        obtain ⟨hFilename, hName⟩ := expand_eq_undefined.mp hExpand
        exact .undefined place options hFilename hName
    | _ => cases h
  · intro h
    cases h with
    | unrecognized => rfl
    | ignored place hName hArguments =>
      simp only [report?, record_eq_wrongArity.mpr ⟨hName, hArguments, rfl⟩]
    | nonLiteral place hName hLiteral =>
      simp only [report?, record_eq_nonLiteral.mpr ⟨hName, _, _, rfl, hLiteral⟩]
    | malformed place options hFilename =>
      simp only [report?, Node.substitute, expand_eq_malformed.mpr hFilename]
    | undefined place options hFilename hName =>
      simp only [report?, Node.substitute, expand_eq_undefined.mpr ⟨hFilename, hName⟩]

theorem diagnostics_handle {σ : Type} (command : String) (depth : Nat) (path : Path) (node : Node) (state : WalkState σ) :
    (Walk.handle (handlers command) depth path node state).2.diagnostics =
      (report? command state.symbols node).elim state.diagnostics state.diagnostics.report := by
  cases node with
  | call place name arguments =>
    have hHandle : (Walk.handle (handlers command) depth path (.call place name arguments) state).2 =
        Assignment.handle command (.call place name arguments) state := rfl
    rw [hHandle]
    unfold report? Assignment.handle
    cases h : (Assignment.record command name arguments state.symbols).1 <;> simp only [h] <;> rfl
  | inclusion place filename options =>
    have hHandle : (Walk.handle (handlers command) depth path (.inclusion place filename options) state).2 =
        ((Node.inclusion place filename options).substitute state.symbols).2.elim state (Walk.report · state) := rfl
    rw [hHandle]
    unfold report?
    cases ((Node.inclusion place filename options).substitute state.symbols).2 <;> rfl
  | block _ form => cases form <;> rfl
  | clause _ form => cases form <;> rfl
  | _ => rfl

/-! ## The whole walk -/

/-- What is reported of nodes that are visited one after the other, with their positions. -/
def reportsFrom (command : String) : SymbolTable → List (Path × Node) → List (Path × Diagnostic)
  | _, [] => []
  | symbols, (path, node) :: rest =>
    (report? command symbols node).toList.map (path, ·) ++ reportsFrom command (definedBy command symbols node) rest

theorem mem_reportsFrom {symbols : SymbolTable} {entries : List (Path × Node)} {path : Path}
    {diagnostic : Diagnostic} : (path, diagnostic) ∈ reportsFrom command symbols entries ↔
      ∃ done node rest, entries = done ++ (path, node) :: rest ∧
        report? command (symbols.defineAll (done.filterMap (·.2.assignment? command))) node = some diagnostic := by
  induction entries generalizing symbols with
  | nil => simp [reportsFrom]
  | cons entry entries ih =>
    obtain ⟨first, target⟩ := entry
    have hDefine (done : List (Path × Node)) :
        symbols.defineAll (((first, target) :: done).filterMap (·.2.assignment? command)) =
          (definedBy command symbols target).defineAll (done.filterMap (·.2.assignment? command)) := by
      cases h : target.assignment? command with
      | none => rw [definedBy_none h, List.filterMap_cons, h]
      | some definition =>
        rw [definedBy_some h, List.filterMap_cons, h]
        rfl
    simp only [reportsFrom, List.mem_append, ih, ← hDefine]
    constructor
    · rintro (h | ⟨done, node, rest, rfl, h⟩)
      · obtain ⟨_, hReport, hEq⟩ := List.mem_map.mp h
        cases hEq
        exact ⟨[], target, entries, rfl, Option.mem_toList.mp hReport⟩
      · exact ⟨(first, target) :: done, node, rest, rfl, h⟩
    · rintro ⟨done, node, rest, hEntries, h⟩
      cases done with
      | nil =>
        cases hEntries
        exact .inl (List.mem_map.mpr ⟨diagnostic, Option.mem_toList.mpr h, rfl⟩)
      | cons other done =>
        cases hEntries
        exact .inr ⟨done, node, rest, rfl, h⟩

theorem paths_reportsFrom (symbols : SymbolTable) (entries : List (Path × Node)) :
    List.Sublist ((reportsFrom command symbols entries).map Prod.fst) (entries.map Prod.fst) := by
  induction entries generalizing symbols with
  | nil => exact .slnil
  | cons entry rest ih =>
    rw [reportsFrom, List.map_append, List.map_cons]
    cases report? command symbols entry.2 with
    | none => exact (ih _).cons _
    | some diagnostic => exact (ih _).cons_cons _

theorem records_foldl_handle {σ : Type} (entries : List (Path × Node)) {state : WalkState σ}
    (hEnabled : state.diagnostics.enabled) :
    (entries.foldl (fun state entry => (Walk.handle (handlers command) 0 entry.1 entry.2 state).2)
        state).diagnostics.records =
      state.diagnostics.records ++ (reportsFrom command state.symbols entries).map Prod.snd := by
  induction entries generalizing state with
  | nil => exact (List.append_nil _).symm
  | cons entry rest ih =>
    have hDiagnostics := diagnostics_handle command 0 entry.1 entry.2 state
    have hSymbols := (handle_handlers command 0 entry.1 entry.2 state).2
    rw [List.foldl_cons, ih, hDiagnostics, hSymbols, reportsFrom, List.map_append]
    · cases report? command state.symbols entry.2 with
      | none => rfl
      | some diagnostic => simp [Diagnostics.report, hEnabled]
    · rw [hDiagnostics]
      cases report? command state.symbols entry.2 <;> simp [hEnabled]

theorem diagnostics_resolve (command : String) (seed : SymbolTable) (root : Node) :
    (resolve command true seed root).diagnostics = (reportsFrom command seed root.walkOrder).map Prod.snd := by
  let start : WalkState Unit := ⟨seed, .start true, ()⟩
  have hRun := Walk.run_eq (shapeKeeping_handlers command) (nonGrowing_handlers command) root start
  calc (resolve command true seed root).diagnostics
      = (root.editAll (Walk.handle (handlers command) 0) start).2.diagnostics.records :=
        congrArg (·.2.diagnostics.records) hRun
    _ = (reportsFrom command seed root.walkOrder).map Prod.snd := by
        rw [Node.editAll_snd, records_foldl_handle _ rfl]
        rfl

/-- Whether a name has no value at a position: the seed has none, and no assignment that comes before gives it one. -/
def UndefinedAt (command : String) (seed : SymbolTable) (root : Node) (path : Path) (name : String) : Prop :=
  seed.lookup? name = none ∧ ∀ other node value, root.At other node → root.Precedes other path →
    node.assignment? command ≠ some (name, value)

theorem lookup?_defineAll_eq_none {seed : SymbolTable} {definitions : List (String × String)} {name : String} :
    (seed.defineAll definitions).lookup? name = none ↔
      seed.lookup? name = none ∧ ∀ value, (name, value) ∉ definitions := by
  rw [SymbolTable.lookup?_defineAll, Option.or_eq_none_iff, and_comm, List.lookup_eq_none_iff]
  refine and_congr_right fun _ => ?_
  constructor
  · intro h value hMem
    simpa using h _ (List.mem_reverse.mpr hMem)
  · rintro h ⟨other, value⟩ hMem
    by_cases hEq : name = other
    · rw [hEq] at h
      exact absurd (List.mem_reverse.mp hMem) (h value)
    · simpa using hEq

theorem undefinedAt_iff {seed : SymbolTable} {root node : Node} {path : Path} {done rest : List (Path × Node)}
    (h : root.walkOrder = done ++ (path, node) :: rest) {name : String} :
    (seed.defineAll (done.filterMap (·.2.assignment? command))).lookup? name = none ↔
      UndefinedAt command seed root path name := by
  rw [lookup?_defineAll_eq_none, UndefinedAt]
  refine and_congr_right fun _ => ?_
  constructor
  · intro hNone other target value hAt hPrecedes hAssignment
    have hDone : (other, target) ∈ done := (Node.mem_done h).mpr ⟨hAt, hPrecedes⟩
    exact hNone value (List.mem_filterMap.mpr ⟨_, hDone, hAssignment⟩)
  · intro hNone value hMem
    obtain ⟨⟨other, target⟩, hDone, hAssignment⟩ := List.mem_filterMap.mp hMem
    obtain ⟨hAt, hPrecedes⟩ := (Node.mem_done h).mp hDone
    exact hNone other target value hAt hPrecedes hAssignment

theorem mem_reportsFrom_walkOrder {seed : SymbolTable} {root : Node} {path : Path} {diagnostic : Diagnostic} :
    (path, diagnostic) ∈ reportsFrom command seed root.walkOrder ↔
      ∃ node, root.At path node ∧ Reports command (UndefinedAt command seed root path) node diagnostic := by
  rw [mem_reportsFrom]
  constructor
  · rintro ⟨done, node, rest, hOrder, hReport⟩
    refine ⟨node, Node.mem_walkOrder.mp ?_, ?_⟩
    · rw [hOrder]
      exact List.mem_append_right _ List.mem_cons_self
    · exact (report?_eq_some.mp hReport).mono fun name hName => (undefinedAt_iff hOrder).mp hName
  · rintro ⟨node, hAt, hReports⟩
    obtain ⟨done, rest, hOrder⟩ := List.append_of_mem (Node.mem_walkOrder.mpr hAt)
    refine ⟨done, node, rest, hOrder, report?_eq_some.mpr ?_⟩
    exact hReports.mono fun name hName => (undefinedAt_iff hOrder).mpr hName

/-! ## Scripts -/

theorem Reports.kind? {undefined : String → Prop} {node : Node} {diagnostic : Diagnostic}
    (h : Reports command undefined node diagnostic) :
    node.kind? = some .call ∨ node.kind? = some .inclusion ∨ node.kind? = none := by
  cases h <;> simp [Node.kind?]

/-- The diagnostics of strict resolution are those of the nodes that there is something to report of: one for each, in
the order of the walk, and no others. In the tree of a script, each has the span of an invocation that its node stands
for, and the script has the text of the invocation there. -/
theorem diagnostics_complete (command : String) (seed : SymbolTable) (root : Node) :
    ∃ reports : List (Path × Diagnostic),
      (resolve command true seed root).diagnostics = reports.map Prod.snd ∧
      reports.Pairwise (fun a b => root.Precedes a.1 b.1) ∧
      (∀ path diagnostic, (path, diagnostic) ∈ reports ↔
        ∃ node, root.At path node ∧ Reports command (UndefinedAt command seed root path) node diagnostic) ∧
      ∀ source, parse source = .ok root → ∃ calls, Invocation.Split (tokenize source).dropLast calls ∧
        ∀ path diagnostic, (path, diagnostic) ∈ reports → ∃ node, root.At path node ∧ ∃ call ∈ calls,
          node.StandsFor call ∧ diagnostic.span = call.span ∧
          ∃ middle, diagnostic.span.Spells source (call.name.text ++ middle ++ ")") := by
  refine ⟨reportsFrom command seed root.walkOrder, diagnostics_resolve command seed root, ?_,
    fun _ _ => mem_reportsFrom_walkOrder, ?_⟩
  · have hOrder : (root.walkOrder.map Prod.fst).Pairwise root.Precedes := List.pairwise_map.mpr root.pairwise_walkOrder
    exact List.pairwise_map.mp (hOrder.sublist (paths_reportsFrom seed root.walkOrder))
  · intro source hParse
    obtain ⟨script, hIsOf, rfl⟩ := exists_script_of_parse hParse
    refine ⟨script.calls, hIsOf, ?_⟩
    intro path diagnostic hMem
    obtain ⟨node, hAt, hReports⟩ := mem_reportsFrom_walkOrder.mp hMem
    obtain ⟨call, hCall, hStands, hSpan⟩ := hIsOf.exists_standsFor hAt hReports.kind?
    refine ⟨node, hAt, call, hCall, hStands, hReports.span.trans hSpan, ?_⟩
    rw [hReports.span, hSpan]
    exact hIsOf.spells_call hCall

/-- A script with one of each condition that can be met in a script, and with a name that is defined too late. -/
theorem diagnostics_complete_of_script :
    let source := "set(A 1 2)\nSET(B $\x7bA\x7d)\ninclude($\x7bC\x7d/x)\nif(D)\ninclude($\x7bD/y)\n" ++
      "set(C [[c]])\nendif()\ninclude($\x7bC\x7d$\x7bE\x7d)\ninclude(\"$\x7bF\x7d\")\n"
    ∃ root, parse source = .ok root ∧
      (resolve "set" true .empty root).diagnostics = [.ignoredAssignment "set" 3 ⟨0, 10⟩,
        .nonLiteralAssignment "SET" ⟨11, 22⟩, .undefinedName "C" ⟨23, 38⟩,
        .malformedReference "$\x7bD/y" ⟨45, 59⟩, .undefinedName "F" ⟨99, 114⟩] ∧
      ∃ calls, Invocation.Split (tokenize source).dropLast calls ∧
        ∀ diagnostic ∈ (resolve "set" true .empty root).diagnostics, ∃ call ∈ calls, diagnostic.span = call.span ∧
          ∃ middle, diagnostic.span.Spells source (call.name.text ++ middle ++ ")") := by
  intro source
  have hDiagnostics : (parse source).toOption.map (fun root => (resolve "set" true .empty root).diagnostics) =
      some [.ignoredAssignment "set" 3 ⟨0, 10⟩, .nonLiteralAssignment "SET" ⟨11, 22⟩, .undefinedName "C" ⟨23, 38⟩,
        .malformedReference "$\x7bD/y" ⟨45, 59⟩, .undefinedName "F" ⟨99, 114⟩] := by decide +kernel
  cases hParse : parse source with
  | error error =>
    rw [hParse] at hDiagnostics
    cases hDiagnostics
  | ok root =>
    rw [hParse] at hDiagnostics
    obtain ⟨reports, hReports, -, -, hInvocations⟩ := diagnostics_complete "set" .empty root
    obtain ⟨calls, hSplit, hCalls⟩ := hInvocations source hParse
    refine ⟨root, rfl, Option.some.inj hDiagnostics, calls, hSplit, ?_⟩
    intro diagnostic hDiagnostic
    rw [hReports] at hDiagnostic
    obtain ⟨⟨path, _⟩, hMem, rfl⟩ := List.mem_map.mp hDiagnostic
    obtain ⟨_, _, call, hCall, _, hSpells⟩ := hCalls path _ hMem
    exact ⟨call, hCall, hSpells⟩

end Listfile.Resolve
