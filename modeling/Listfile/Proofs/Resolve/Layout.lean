import Listfile.Proofs.Grammar.Canonical
import Listfile.Proofs.Resolve.Strictness
import Listfile.Proofs.Walk.Collect
/-! # Resolution without layout

What resolution does with the canonical form of a tree is the canonical form of what it does with the tree: places are
copied to reports and otherwise not looked at, and the names of commands are compared without case.
-/
namespace Listfile
set_option autoImplicit false

def Diagnostic.canonical : Diagnostic → Diagnostic
  | unrecognizedNode tag _ => unrecognizedNode tag .origin
  | ignoredAssignment command arity _ => ignoredAssignment (lowerCase command) arity .origin
  | nonLiteralAssignment command _ => nonLiteralAssignment (lowerCase command) .origin
  | malformedReference text _ => malformedReference text .origin
  | undefinedName name _ => undefinedName name .origin

/-- The filename and the options of an inclusion. -/
def Node.file? : Node → Option (String × List String)
  | inclusion _ filename options => some (filename, options)
  | _ => none

namespace Node

variable (f : FieldMap)

theorem file?_mapFields (node : Node) : (node.mapFields f).file? = node.file? := by cases node <;> rfl

mutual

theorem mapFields_renameInclusions (rename : Path → String → String) (node : Node) :
    (node.renameInclusions rename).mapFields f = (node.mapFields f).renameInclusions rename := by
  cases node with
  | toplevel place statements => simp only [renameInclusions, mapFields, mapFieldsAll_renameAll]
  | block place form header body footer =>
    simp only [renameInclusions, mapFields, mapFields_renameInclusions, mapFieldsAll_renameAll]
  | conditional place ifClause elseifs elseClause footer =>
    cases elseClause with
    | none =>
      simp only [renameInclusions, renameOption, mapFields, mapFieldsOption, mapFields_renameInclusions,
        mapFieldsAll_renameAll]
    | some elseClause =>
      simp only [renameInclusions, renameOption, mapFields, mapFieldsOption, mapFields_renameInclusions,
        mapFieldsAll_renameAll]
  | clause place form header body =>
    simp only [renameInclusions, mapFields, mapFields_renameInclusions, mapFieldsAll_renameAll]
  | call place name arguments => simp only [renameInclusions, mapFields, mapFieldsAll_renameAll]
  | inclusion | word | unrecognized => rfl

theorem mapFieldsAll_renameAll (rename : Path → String → String) (slot : Slot) (index : Nat) (nodes : List Node) :
    mapFieldsAll f (renameAll rename slot index nodes) = renameAll rename slot index (mapFieldsAll f nodes) := by
  cases nodes with
  | nil => rfl
  | cons node rest => simp only [renameAll, mapFieldsAll, mapFields_renameInclusions, mapFieldsAll_renameAll]

end

theorem literals_canonical (nodes : List Node) : (nodes.map canonical).map literal? = nodes.map literal? := by
  rw [List.map_map]
  exact List.map_congr_left fun node _ => node.literal?_mapFields _

theorem walkOrder_canonical (root : Node) :
    root.canonical.walkOrder = root.walkOrder.map fun entry => (entry.1, entry.2.canonical) :=
  walkOrder_mapFields _ root

end Node

namespace Resolve

variable (command : String)

/-! ## One node -/

theorem assignment?_canonical (node : Node) : node.canonical.assignment? command = node.assignment? command := by
  cases node with
  | call place name arguments =>
    rw [Node.canonical_call]
    exact assignment?_congr (sameCommand_lowerCase name command) (Node.literals_canonical arguments)
  | _ => rfl

theorem definedBy_canonical (symbols : SymbolTable) (node : Node) :
    definedBy command symbols node.canonical = definedBy command symbols node := by
  rw [definedBy, assignment?_canonical, definedBy]

theorem report?_canonical (symbols : SymbolTable) (node : Node) :
    report? command symbols node.canonical = (report? command symbols node).map Diagnostic.canonical := by
  cases node with
  | call place name arguments =>
    rw [Node.canonical_call, report?, record_congr (sameCommand_lowerCase name command)
      (Node.literals_canonical arguments), report?]
    cases (Assignment.record command name arguments symbols).1 <;> rfl
  | inclusion place filename options =>
    simp only [Node.canonical, Node.mapFields, report?, Node.substitute]
    cases expand filename symbols <;> rfl
  | _ => rfl

/-! ## The whole walk -/

theorem reportsFrom_canonical (symbols : SymbolTable) (entries : List (Path × Node)) :
    reportsFrom command symbols (entries.map fun entry => (entry.1, entry.2.canonical)) =
      (reportsFrom command symbols entries).map fun entry => (entry.1, entry.2.canonical) := by
  induction entries generalizing symbols with
  | nil => rfl
  | cons entry rest ih =>
    rw [List.map_cons, reportsFrom, report?_canonical, definedBy_canonical, ih, reportsFrom, List.map_append]
    cases report? command symbols entry.2 <;> rfl

theorem tree_resolve_canonical (strict : Bool) (seed : SymbolTable) (root : Node) :
    (resolve command strict seed root.canonical).tree = (resolve command strict seed root).tree.canonical := by
  have hTable : tableAt command seed root.canonical = tableAt command seed root :=
    tableAt_congr root.walkOrder_canonical (fun entry => entry.2.kind?_mapFields _)
      (fun entry => assignment?_canonical command entry.2) seed
  rw [tree_resolve, tree_resolve, hTable]
  exact (Node.mapFields_renameInclusions _ _ root).symm

theorem symbols_resolve_canonical (strict : Bool) (seed : SymbolTable) (root : Node) :
    (resolve command strict seed root.canonical).symbols = (resolve command strict seed root).symbols := by
  rw [symbols_resolve, symbols_resolve]
  exact congrArg seed.defineAll
    (definitions_congr root.walkOrder_canonical fun entry => assignment?_canonical command entry.2)

theorem diagnostics_resolve_canonical (strict : Bool) (seed : SymbolTable) (root : Node) :
    (resolve command strict seed root.canonical).diagnostics =
      (resolve command strict seed root).diagnostics.map Diagnostic.canonical := by
  cases strict with
  | false => rw [(resolve_strict command seed root.canonical).2.2, (resolve_strict command seed root).2.2, List.map_nil]
  | true =>
    rw [diagnostics_resolve, diagnostics_resolve, root.walkOrder_canonical, reportsFrom_canonical, List.map_map,
      List.map_map]
    rfl

theorem files_canonical (root : Node) :
    (inclusions root.canonical).map (fun entry => entry.1.file?) =
      (inclusions root).map fun entry => entry.1.file? := by
  simp only [inclusions, Walk.collect_eq, root.walkOrder_canonical, List.filterMap_map, List.map_filterMap]
  refine List.filterMap_congr fun entry _ => ?_
  simp only [Function.comp_apply, Walk.noted?, Node.canonical, Node.kind?_mapFields]
  cases entry.2.kind? with
  | none => rfl
  | some kind =>
    simp only
    split
    · exact congrArg some (entry.2.file?_mapFields _)
    · rfl

end Resolve

/-- The tree that a script is read as, without its places, is settled by the kinds and the texts of its tokens, and for
the names of commands by these without the case of their letters. So is the error, if there is one; and so is all that
resolution makes of the tree: the symbols, the inclusions in their order, and the reports without their places. -/
theorem layout_is_immaterial {source source' : String}
    (h : Token.canonical 0 (tokenize source) = Token.canonical 0 (tokenize source')) :
    (∃ root root', parse source = .ok root ∧ parse source' = .ok root' ∧ root.canonical = root'.canonical ∧
      ∀ command strict seed,
        let resolved := resolve command strict seed root
        let resolved' := resolve command strict seed root'
        resolved.symbols = resolved'.symbols ∧
        (inclusions resolved.tree).map (fun entry => entry.1.file?) =
          (inclusions resolved'.tree).map (fun entry => entry.1.file?) ∧
        resolved.diagnostics.map Diagnostic.canonical = resolved'.diagnostics.map Diagnostic.canonical) ∨
    ∃ error error', parse source = .error error ∧ parse source' = .error error' ∧ error.canonical = error'.canonical := by
  have hParse : canonicalResult Node.canonical (parse source) = canonicalResult Node.canonical (parse source') := by
    rw [canonicalResult_parse, h, canonicalResult_parse]
  cases hLeft : parse source with
  | error error =>
    cases hRight : parse source' with
    | error error' =>
      rw [hLeft, hRight] at hParse
      exact .inr ⟨error, error', rfl, rfl, Except.error.inj hParse⟩
    | ok root' =>
      rw [hLeft, hRight] at hParse
      cases hParse
  | ok root =>
    cases hRight : parse source' with
    | error error' =>
      rw [hLeft, hRight] at hParse
      cases hParse
    | ok root' =>
      rw [hLeft, hRight] at hParse
      have hTree : root.canonical = root'.canonical := Except.ok.inj hParse
      refine .inl ⟨root, root', rfl, rfl, hTree, fun command strict seed => ⟨?_, ?_, ?_⟩⟩
      · rw [← Resolve.symbols_resolve_canonical, hTree, Resolve.symbols_resolve_canonical]
      · rw [← Resolve.files_canonical, ← Resolve.tree_resolve_canonical, hTree, Resolve.tree_resolve_canonical,
          Resolve.files_canonical]
      · rw [← Resolve.diagnostics_resolve_canonical, hTree, Resolve.diagnostics_resolve_canonical]

/-- A block and an assignment on one line in lower case, and over several lines, with comments, in other cases. -/
theorem layout_is_immaterial_of_block :
    let source := "while(A) set(B c) endwhile() include($\x7bB\x7d $\x7bC\x7d)"
    let source' := "While (A) # loop\n  SET(B\n c)\nENDWHILE()\n#[[ x ]]\n include($\x7bB\x7d\n$\x7bC\x7d)"
    Token.canonical 0 (tokenize source) = Token.canonical 0 (tokenize source') ∧
      ∃ root root', parse source = .ok root ∧ parse source' = .ok root' ∧
        (resolve "Set" true .empty root).symbols = (resolve "Set" true .empty root').symbols := by
  intro source source'
  have hTokens : Token.canonical 0 (tokenize source) = Token.canonical 0 (tokenize source') := by decide +kernel
  refine ⟨hTokens, ?_⟩
  rcases layout_is_immaterial hTokens with ⟨root, root', hRoot, hRoot', -, hResolve⟩ | ⟨error, _, hError, -⟩
  · exact ⟨root, root', hRoot, hRoot', (hResolve "Set" true .empty).1⟩
  · have hOk : (parse source).isOk := by decide +kernel
    rw [hError] at hOk
    cases hOk

end Listfile
