import Mathlib.Logic.Function.Iterate
import Listfile.Proofs.Resolve.Pass
/-! # Resolution over and over

Resolution changes filenames alone, and no assignment depends on one. So every run on the tree that an earlier run has
left makes the definitions of the first, and has at every inclusion the table of the first: a filename is rewritten
again and again with the same table. Runs that start from the table of the run before end with that table too.
-/
namespace Listfile
set_option autoImplicit false

namespace Node

theorem literal?_renameInclusions (rename : Path → String → String) (node : Node) :
    (node.renameInclusions rename).literal? = node.literal? := by
  cases node <;> rfl

theorem literals_renameAll (rename : Path → String → String) (slot : Slot) (index : Nat) (nodes : List Node) :
    (renameAll rename slot index nodes).map literal? = nodes.map literal? := by
  induction nodes generalizing index with
  | nil => rfl
  | cons node rest ih => rw [renameAll, List.map_cons, literal?_renameInclusions, ih, List.map_cons]

end Node

namespace Resolve

/-- What a node assigns is not a matter of filenames. -/
theorem assignment?_renameInclusions (command : String) (rename : Path → String → String) (node : Node) :
    (node.renameInclusions rename).assignment? command = node.assignment? command := by
  cases node with
  | call place name arguments => exact assignment?_congr rfl (Node.literals_renameAll rename .arguments 0 arguments)
  | _ => rfl

theorem definitions_renameInclusions (command : String) (rename : Path → String → String) (root : Node) :
    definitions command (root.renameInclusions rename) = definitions command root :=
  definitions_congr (Node.walkOrder_renameInclusions rename root)
    fun entry => assignment?_renameInclusions command _ entry.2

theorem tableAt_renameInclusions (command : String) (seed : SymbolTable) (rename : Path → String → String)
    (root : Node) : tableAt command seed (root.renameInclusions rename) = tableAt command seed root :=
  tableAt_congr (Node.walkOrder_renameInclusions rename root) (fun entry => Node.kind?_renameInclusions _ entry.2)
    (fun entry => assignment?_renameInclusions command _ entry.2) seed

/-! ## One run after the other -/

variable (command : String) (strict : Bool) (seed : SymbolTable)

/-- What is left of a tree by a number of runs that all start from the seed: a filename is rewritten in each of them
with the table in effect there in the first. -/
theorem tree_iterate (root : Node) (k : Nat) :
    (fun tree => (resolve command strict seed tree).tree)^[k] root =
      root.renameInclusions fun path => (expanded (tableAt command seed root path))^[k] := by
  induction k with
  | zero => exact (Node.renameInclusions_id root).symm
  | succ k ih =>
    rw [Function.iterate_succ_apply', ih, tree_resolve, tableAt_renameInclusions,
      Node.renameInclusions_renameInclusions]
    exact congrArg root.renameInclusions (funext fun path => (Function.iterate_succ' _ k).symm)

/-- Runs that each start from the table that the run before has left. -/
theorem reseeded_iterate (root : Node) (k : Nat) :
    let next := fun run : Resolution => resolve command strict run.symbols run.tree
    (next^[k] (resolve command strict seed root)).symbols = seed.defineAll (definitions command root) ∧
      definitions command (next^[k] (resolve command strict seed root)).tree = definitions command root := by
  intro next
  induction k with
  | zero =>
    refine ⟨symbols_resolve command strict seed root, ?_⟩
    rw [Function.iterate_zero, id, tree_resolve, definitions_renameInclusions]
  | succ k ih =>
    obtain ⟨hSymbols, hDefinitions⟩ := ih
    rw [Function.iterate_succ_apply']
    constructor
    · rw [symbols_resolve, hSymbols, hDefinitions, SymbolTable.defineAll_defineAll]
    · rw [tree_resolve, definitions_renameInclusions, hDefinitions]

theorem expanded_of_not_expanded {symbols : SymbolTable} {filename : String}
    (h : ∀ text, expand filename symbols ≠ .expanded text) : expanded symbols filename = filename := by
  unfold expanded
  split
  · rename_i hExpand
    exact absurd hExpand (h _)
  all_goals rfl

/-- An inclusion of the tree that some runs have left stays as it is if the next run cannot expand it. -/
theorem at_iterate_of_not_expanded {root : Node} {k : Nat} {path : Path} {place : Location} {filename : String}
    {options : List String}
    (hAt : ((fun tree => (resolve command strict seed tree).tree)^[k] root).At path (.inclusion place filename options))
    (h : ∀ text, expand filename (tableAt command seed root path) ≠ .expanded text) (more : Nat) :
    ((fun tree => (resolve command strict seed tree).tree)^[k + more] root).At path
      (.inclusion place filename options) := by
  rw [tree_iterate] at hAt ⊢
  obtain ⟨before, hBefore, hInclusion⟩ := Node.at_renameInclusions.mp hAt
  refine Node.at_renameInclusions.mpr ⟨before, hBefore, ?_⟩
  cases before with
  | inclusion place' original options' =>
    rw [Node.renameInclusions, List.append_nil, Node.inclusion.injEq] at hInclusion
    obtain ⟨rfl, rfl, rfl⟩ := hInclusion
    rw [Node.renameInclusions, List.append_nil, Nat.add_comm, Function.iterate_add_apply,
      Function.iterate_fixed (expanded_of_not_expanded h)]
  | _ => cases hInclusion

/-- Resolution over and over, each run on the tree that the run before has left.

Runs that start from the same table end with the same one, and have at every position the table of the first; they
apply to the filename of each inclusion the same rewriting once a run, and change nothing else; and an inclusion that
one of them cannot expand is not changed by the later ones. Runs that start from the table of the run before end with
the table of the first too. -/
theorem resolve_repeatedly (root : Node) :
    let again := fun tree => (resolve command strict seed tree).tree
    let next := fun run : Resolution => resolve command strict run.symbols run.tree
    (∀ k, (resolve command strict seed (again^[k] root)).symbols = (resolve command strict seed root).symbols) ∧
    (∀ k, tableAt command seed (again^[k] root) = tableAt command seed root) ∧
    (∀ k, again^[k] root = root.renameInclusions fun path => (expanded (tableAt command seed root path))^[k]) ∧
    (∀ k path place filename options, (again^[k] root).At path (.inclusion place filename options) →
      (∀ text, expand filename (tableAt command seed (again^[k] root) path) ≠ .expanded text) →
      ∀ more, (again^[k + more] root).At path (.inclusion place filename options)) ∧
    ∀ k, (next^[k] (resolve command strict seed root)).symbols = (resolve command strict seed root).symbols := by
  intro again next
  have hTable (k : Nat) : tableAt command seed (again^[k] root) = tableAt command seed root := by
    rw [tree_iterate, tableAt_renameInclusions]
  refine ⟨fun k => ?_, hTable, tree_iterate command strict seed root, fun k path place filename options hAt h => ?_,
    fun k => ?_⟩
  · rw [symbols_resolve, tree_iterate, definitions_renameInclusions, symbols_resolve]
  · rw [hTable] at h
    exact at_iterate_of_not_expanded command strict seed hAt h
  · rw [(reseeded_iterate command strict seed root k).1, symbols_resolve]

/-- Two references, the first of which brings in another one, and a name without a value. -/
theorem resolve_repeatedly_of_chain :
    let place : Location := default
    let word (text : String) : Node := .word place .unquoted text
    let set (name value : String) : Node := .call place "SET" [word name, word value]
    let file (filename : String) : Node := .inclusion place filename []
    let root := Node.toplevel place [set "A" "$\x7bB\x7d-x", set "B" "b", file "$\x7bA\x7d/$\x7bC\x7d", set "C" "c"]
    let again := fun tree => (resolve "set" true .empty tree).tree
    let inclusionPath : Path := [⟨.statements, 2⟩]
    (again^[2] root).At inclusionPath (file "b-x/$\x7bC\x7d") ∧
      (∀ text, expand "b-x/$\x7bC\x7d" (tableAt "set" .empty (again^[2] root) inclusionPath) ≠ .expanded text) ∧
      ∀ more, (again^[2 + more] root).At inclusionPath (file "b-x/$\x7bC\x7d") := by
  intro place word set file root again inclusionPath
  have hTree : again^[2] root =
      .toplevel place [set "A" "$\x7bB\x7d-x", set "B" "b", file "b-x/$\x7bC\x7d", set "C" "c"] := by
    have hFile : (expanded (tableAt "set" .empty root inclusionPath))^[2] "$\x7bA\x7d/$\x7bC\x7d" =
        "b-x/$\x7bC\x7d" := by
      decide +kernel
    rw [tree_iterate, ← hFile]
    rfl
  have hAt : (again^[2] root).At inclusionPath (file "b-x/$\x7bC\x7d") := by
    rw [hTree]
    exact .step (Node.mem_stored.mpr rfl) (.here _)
  have hExpand : expand "b-x/$\x7bC\x7d" (tableAt "set" .empty (again^[2] root) inclusionPath) = .undefined "C" := by
    rw [hTree]
    decide +kernel
  have hStuck (text : String) : expand "b-x/$\x7bC\x7d" (tableAt "set" .empty (again^[2] root) inclusionPath) ≠
      .expanded text := by
    rw [hExpand]
    nofun
  exact ⟨hAt, hStuck, (resolve_repeatedly "set" true .empty root).2.2.2.1 2 _ _ _ _ hAt hStuck⟩

end Resolve
end Listfile
