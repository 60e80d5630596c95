import Listfile.CommandLine.Run
import Listfile.Proofs.Resolve.Strictness
/-! # What resolution depends on

Of the definitions that a resolution starts from, only those of the names that inclusions refer to matter. Two tables
that agree on these names may differ elsewhere, and still agree on these names wherever the walk comes to.
-/
namespace Listfile
set_option autoImplicit false

/-- Whether the file of an inclusion that is visited refers to a name, before all others. -/
def Node.Refers (root : Node) (name : String) : Prop :=
  ∃ path place filename options reference, root.At path (.inclusion place filename options) ∧ root.Visible path ∧
    Reference.scan filename = .found reference ∧ reference.name = name

/-- Whether an assignment that is visited gives a name a value. -/
def Node.Assigns (command : String) (root : Node) (name : String) : Prop :=
  ∃ path node value, root.At path node ∧ root.Visible path ∧ node.assignment? command = some (name, value)

/-! ## One text -/

theorem expand_congr {text : String} {a b : SymbolTable}
    (h : ∀ reference, Reference.scan text = .found reference → a.lookup? reference.name = b.lookup? reference.name) :
    expand text a = expand text b := by
  unfold expand
  cases hScan : Reference.scan text with
  | absent | unterminated => rfl
  | found reference => simp only [h reference hScan]

namespace Resolve

variable {command : String} {a b : SymbolTable} {root : Node}

theorem expand_eq_of_refers (h : a.AgreeOn root.Refers b) {path : Path} {place : Location} {filename : String}
    {options : List String} (hAt : root.At path (.inclusion place filename options)) :
    expand filename a = expand filename b := by
  apply expand_congr
  intro reference hScan
  exact h _ ⟨path, place, filename, options, reference, hAt, hAt.visible rfl, hScan, rfl⟩

theorem agreeOn_tableAt {relevant : String → Prop} (h : a.AgreeOn relevant b) (path : Path) :
    (tableAt command a root path).AgreeOn relevant (tableAt command b root path) := h.defineAll _

theorem tree_congr (h : a.AgreeOn root.Refers b) (strict : Bool) :
    (resolve command strict a root).tree = (resolve command strict b root).tree := by
  rw [tree_resolve, tree_resolve]
  apply Node.renameInclusions_congr
  intro path place filename options hAt
  rw [expanded, expanded, expand_eq_of_refers (agreeOn_tableAt h path) hAt]

/-- Reports depend on no names but those that inclusions refer to. -/
theorem Reports.of_refers {undefined undefined' : String → Prop} {path : Path} {node : Node} {diagnostic : Diagnostic}
    (h : Reports command undefined node diagnostic) (hAt : root.At path node)
    (hImp : ∀ name, root.Refers name → undefined name → undefined' name) :
    Reports command undefined' node diagnostic := by
  cases h with
  | unrecognized place tag payload => exact .unrecognized place tag payload
  | ignored place hName hArguments => exact .ignored place hName hArguments
  | nonLiteral place hName hLiteral => exact .nonLiteral place hName hLiteral
  | malformed place options hFilename => exact .malformed place options hFilename
  | @undefined place filename name options hFilename hName =>
    obtain ⟨before, after, hScan⟩ := Reference.scan_eq_found.mpr hFilename
    have hRefers : root.Refers name := ⟨path, place, filename, options, _, hAt, hAt.visible rfl, hScan, rfl⟩
    exact .undefined place options hFilename (hImp name hRefers hName)

theorem report?_congr (h : a.AgreeOn root.Refers b) {path : Path} {node : Node} (hAt : root.At path node) :
    report? command a node = report? command b node := by
  apply Option.ext
  intro diagnostic
  rw [report?_eq_some, report?_eq_some]
  constructor
  · intro hReports
    exact hReports.of_refers hAt fun name hRefers hNone => (h name hRefers).symm.trans hNone
  · intro hReports
    exact hReports.of_refers hAt fun name hRefers hNone => (h name hRefers).trans hNone

theorem reportsFrom_congr (h : a.AgreeOn root.Refers b) {entries : List (Path × Node)}
    (hEntries : ∀ entry ∈ entries, root.At entry.1 entry.2) :
    reportsFrom command a entries = reportsFrom command b entries := by
  induction entries generalizing a b with
  | nil => rfl
  | cons entry rest ih =>
    obtain ⟨hFirst, hRest⟩ := List.forall_mem_cons.mp hEntries
    have hDefined : (definedBy command a entry.2).AgreeOn root.Refers (definedBy command b entry.2) := h.defineAll _
    rw [reportsFrom, reportsFrom, report?_congr h hFirst, ih hDefined hRest]

theorem diagnostics_congr (h : a.AgreeOn root.Refers b) (strict : Bool) :
    (resolve command strict a root).diagnostics = (resolve command strict b root).diagnostics := by
  cases strict with
  | true =>
    rw [diagnostics_resolve, diagnostics_resolve, reportsFrom_congr h fun _ hEntry => Node.mem_walkOrder.mp hEntry]
  | false => rw [(resolve_strict command a root).2.2, (resolve_strict command b root).2.2]

theorem mem_definitions_iff {name : String} :
    name ∈ (definitions command root).map Prod.fst ↔ root.Assigns command name := by
  simp only [definitions, List.mem_map, List.mem_filterMap, Node.Assigns]
  constructor
  · rintro ⟨⟨_, value⟩, ⟨⟨path, node⟩, hMem, hAssignment⟩, rfl⟩
    have hAt := Node.mem_walkOrder.mp hMem
    obtain ⟨_, _, _, _, rfl, -⟩ := assignment?_eq_some.mp hAssignment
    exact ⟨path, _, value, hAt, hAt.visible rfl, hAssignment⟩
  · rintro ⟨path, node, value, hAt, -, hAssignment⟩
    exact ⟨(name, value), ⟨(path, node), Node.mem_walkOrder.mpr hAt, hAssignment⟩, rfl⟩

theorem agreeOn_symbols (strict : Bool) : (resolve command strict a root).symbols.AgreeOn
    (fun name => root.Assigns command name ∨ a.lookup? name = b.lookup? name)
    (resolve command strict b root).symbols := by
  rw [symbols_resolve, symbols_resolve]
  rintro name (hAssigns | hSeeds)
  · exact SymbolTable.agreeOn_defined a b _ name (mem_definitions_iff.mpr hAssigns)
  · have hName : a.AgreeOn (· = name) b := fun other hOther => hOther ▸ hSeeds
    exact hName.defineAll _ name rfl

/-- Two resolutions of a tree, whose seeds agree on the names that inclusions refer to, give the same tree and the same
diagnostics. The tables at their ends agree on the names that are assigned, and where the seeds do. So neither the
order in which distinct names are defined nor definitions of names that nothing refers to make a difference. -/
theorem resolve_depends_on_references (command : String) (strict : Bool) (root : Node) :
    (∀ a b : SymbolTable, (∀ name, root.Refers name → a.lookup? name = b.lookup? name) →
      (resolve command strict a root).tree = (resolve command strict b root).tree ∧
      (resolve command strict a root).diagnostics = (resolve command strict b root).diagnostics ∧
      ∀ name, root.Assigns command name ∨ a.lookup? name = b.lookup? name →
        (resolve command strict a root).symbols.lookup? name = (resolve command strict b root).symbols.lookup? name) ∧
    (∀ definitions definitions' : List (String × String), definitions.Perm definitions' →
      (definitions.map Prod.fst).Nodup →
      let resolution := CommandLine.ResolveOptions.apply ⟨definitions, command, strict⟩ root
      let reordered := CommandLine.ResolveOptions.apply ⟨definitions', command, strict⟩ root
      resolution.tree = reordered.tree ∧ resolution.diagnostics = reordered.diagnostics) ∧
    ∀ before extra after : List (String × String), (∀ definition ∈ extra, ¬root.Refers definition.1) →
      let resolution := CommandLine.ResolveOptions.apply ⟨before ++ after, command, strict⟩ root
      let extended := CommandLine.ResolveOptions.apply ⟨before ++ extra ++ after, command, strict⟩ root
      resolution.tree = extended.tree ∧ resolution.diagnostics = extended.diagnostics := by
  refine ⟨fun a b h => ⟨tree_congr h strict, diagnostics_congr h strict, agreeOn_symbols strict⟩, ?_, ?_⟩
  · intro definitions definitions' hPerm hNames
    have hSeeds : (SymbolTable.ofList definitions).AgreeOn root.Refers (.ofList definitions') :=
      SymbolTable.agreeOn_of_perm hPerm hNames root.Refers .empty
    exact ⟨tree_congr hSeeds strict, diagnostics_congr hSeeds strict⟩
  · intro before extra after hExtra
    have hSeeds : (SymbolTable.ofList (before ++ after)).AgreeOn root.Refers (.ofList (before ++ extra ++ after)) := by
      have hOthers := (SymbolTable.agreeOn_others hExtra (.ofList before)).defineAll after
      intro name hName
      calc (SymbolTable.ofList (before ++ after)).lookup? name
          = ((SymbolTable.ofList before).defineAll after).lookup? name := by rw [SymbolTable.ofList_append]
        _ = (((SymbolTable.ofList before).defineAll extra).defineAll after).lookup? name := (hOthers name hName).symm
        _ = (SymbolTable.ofList (before ++ extra ++ after)).lookup? name := by
          rw [SymbolTable.ofList_append, SymbolTable.ofList_append]
    exact ⟨tree_congr hSeeds strict, diagnostics_congr hSeeds strict⟩

/-- Two seeds that differ in two names, of which one stands after a reference in a filename and is assigned later. -/
theorem resolve_depends_on_references_of_second :
    let place : Location := default
    let word (text : String) : Node := .word place .unquoted text
    let root : Node := .toplevel place [.inclusion place "$\x7bA\x7d/$\x7bB\x7d" [],
      .call place "set" [word "B", word "x"]]
    let first := resolve "set" true (.ofList [("A", "a"), ("B", "b")]) root
    let second := resolve "set" true (.ofList [("C", "c"), ("A", "a")]) root
    first.tree = second.tree ∧ first.diagnostics = second.diagnostics ∧
      first.symbols.lookup? "B" = second.symbols.lookup? "B" := by
  intro place word root
  have hOrder : root.walkOrder.map Prod.snd = [root, .inclusion place "$\x7bA\x7d/$\x7bB\x7d" [],
      .call place "set" [word "B", word "x"], word "B", word "x"] := by with_unfolding_all rfl
  have hSeeds : ∀ name, root.Refers name → (SymbolTable.ofList [("A", "a"), ("B", "b")]).lookup? name =
      (SymbolTable.ofList [("C", "c"), ("A", "a")]).lookup? name := by
    rintro _ ⟨path, _, filename, options, reference, hAt, -, hScan, rfl⟩
    have hMem := List.mem_map_of_mem (f := Prod.snd) (Node.mem_walkOrder.mpr hAt)
    rw [hOrder] at hMem
    obtain ⟨-, rfl, -⟩ : _ ∧ filename = "$\x7bA\x7d/$\x7bB\x7d" ∧ _ := by simpa [root, word] using hMem
    have hFound : Reference.scan "$\x7bA\x7d/$\x7bB\x7d" = .found ⟨"", "A", "/$\x7bB\x7d"⟩ := by decide
    cases hFound.symm.trans hScan
    rfl
  obtain ⟨hTree, hDiagnostics, hSymbols⟩ := (resolve_depends_on_references "set" true root).1 _ _ hSeeds
  have hAt : root.At [⟨.statements, 1⟩] (.call place "set" [word "B", word "x"]) :=
    .step (.tail _ (.head _)) (.here _)
  refine ⟨hTree, hDiagnostics, hSymbols "B" (.inl ⟨_, _, "x", hAt, hAt.visible rfl, ?_⟩)⟩
  decide +kernel

end Resolve
end Listfile
