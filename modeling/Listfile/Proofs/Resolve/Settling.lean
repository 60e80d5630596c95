import Listfile.Proofs.Reference.Dollars
import Listfile.Proofs.Resolve.Repetition
/-! # Resolution that comes to an end

Where neither the seed nor an assignment of a tree gives a name a value with a `$`, resolution over and over leaves the
tree as it is at last. The table in effect at an inclusion is the same in every run, so each run is a step in the
expansion of every filename, and takes away at least one `$` of those that it changes.
-/
namespace Listfile
set_option autoImplicit false

theorem Final.not_expanded {symbols : SymbolTable} {text : String} (h : Final symbols text) (next : String) :
    expand text symbols ≠ .expanded next := by
  rcases h with hExpand | hExpand | ⟨name, hExpand⟩ <;> rw [hExpand] <;> exact Expansion.noConfusion

namespace Resolve

variable {symbols : SymbolTable}

theorem expanded_of_final {text : String} (h : Final symbols text) : expanded symbols text = text :=
  expanded_of_not_expanded h.not_expanded

theorem expanded_of_expand {text next : String} (h : expand text symbols = .expanded next) :
    expanded symbols text = next := by
  rw [expanded, h]

/-- As many rewritings as a filename has `$` leave nothing to be rewritten. -/
theorem expanded_iterate (h : symbols.DollarFree) {filename : String} {most : Nat} (hMost : dollars filename ≤ most) :
    expanded symbols ((expanded symbols)^[most] filename) = (expanded symbols)^[most] filename := by
  induction most generalizing filename with
  | zero =>
    rw [Function.iterate_zero, id]
    refine expanded_of_not_expanded fun next hExpand => ?_
    have hLt := dollars_lt_of_expand h hExpand
    omega
  | succ most ih =>
    rw [Function.iterate_succ_apply]
    rcases expanded_or_final symbols filename with ⟨next, hExpand⟩ | hFinal
    · rw [expanded_of_expand hExpand]
      have hLt := dollars_lt_of_expand h hExpand
      exact ih (by omega)
    · have hFixed := expanded_of_final hFinal
      rw [hFixed, Function.iterate_fixed hFixed, hFixed]

section tree

variable {command : String} {seed : SymbolTable} {root : Node}

theorem dollarFree_tableAt (hSeed : seed.DollarFree)
    (hValues : ∀ path node name value, root.At path node → node.assignment? command = some (name, value) →
      '$' ∉ value.toList) (path : Path) : (tableAt command seed root path).DollarFree := by
  refine hSeed.defineAll fun ⟨name, value⟩ hMem => ?_
  obtain ⟨⟨above, node⟩, hBefore, hAssignment⟩ := List.mem_filterMap.mp hMem
  have hReached := (List.mem_filter.mp ((List.takeWhile_sublist _).subset hBefore)).1
  exact hValues above node name value (Node.mem_walkOrder.mp hReached) hAssignment

theorem iterate_settles (hTable : ∀ path, (tableAt command seed root path).DollarFree) {most : Nat}
    (hMost : ∀ path place filename options, root.At path (.inclusion place filename options) →
      dollars filename ≤ most) (strict : Bool) (more : Nat) :
    (fun tree => (resolve command strict seed tree).tree)^[most + more] root =
      (fun tree => (resolve command strict seed tree).tree)^[most] root := by
  rw [tree_iterate, tree_iterate]
  refine Node.renameInclusions_congr fun path place filename options hAt => ?_
  have hFixed := expanded_iterate (hTable path) (hMost path place filename options hAt)
  rw [Nat.add_comm, Function.iterate_add_apply, Function.iterate_fixed hFixed]

end tree

/-- A step of expansion changes the number of `$` by those of the value less those of the name and the one before it. So
the expansion of a text over and over, with values that have no `$`, ends within as many steps as the text has `$`, in
a text that cannot be expanded. Resolution over and over, where neither the seed nor a value that is assigned has a `$`,
changes a tree no more after as many runs as any of its filenames has `$`. -/
theorem repeated_expansion_ends :
    (∀ (symbols : SymbolTable) (text result : String), expand text symbols = .expanded result →
      ∃ reference value, Reference.IsFirstOf reference text ∧ symbols.lookup? reference.name = some value ∧
        result = reference.before ++ value ++ reference.after ∧
        (dollars result : Int) - dollars text = dollars value - dollars reference.name - 1) ∧
    (∀ symbols : SymbolTable, symbols.DollarFree → ∀ text : String,
      (∀ steps last, Expands symbols text steps last → steps ≤ dollars text) ∧
      ∃ steps last, steps ≤ dollars text ∧ Expands symbols text steps last ∧
        (expand last symbols = .noReference ∨ expand last symbols = .malformed ∨
          ∃ name, expand last symbols = .undefined name)) ∧
    ∀ (command : String) (strict : Bool) (seed : SymbolTable) (root : Node) (most : Nat), seed.DollarFree →
      (∀ path node name value, root.At path node → node.assignment? command = some (name, value) →
        '$' ∉ value.toList) →
      (∀ path place filename options, root.At path (.inclusion place filename options) → dollars filename ≤ most) →
      let again := fun tree => (resolve command strict seed tree).tree
      ∀ more, again^[most + more] root = again^[most] root := by
  refine ⟨?_, ?_, ?_⟩
  · intro symbols text result hExpand
    obtain ⟨reference, value, hFirst, hValue, rfl⟩ := expand_eq_expanded.mp hExpand
    have hDollars := dollars_replaced hFirst value
    exact ⟨reference, value, hFirst, hValue, rfl, by omega⟩
  · intro symbols hFree text
    have hSteps (steps : Nat) (last : String) (hExpands : Expands symbols text steps last) : steps ≤ dollars text :=
      (Nat.le_add_right _ _).trans (hExpands.add_le hFree)
    obtain ⟨steps, last, hExpands, hFinal⟩ := exists_expands_final hFree text
    exact ⟨hSteps, steps, last, hSteps steps last hExpands, hExpands, hFinal⟩
  · intro command strict seed root most hSeed hValues hMost again
    exact iterate_settles (dollarFree_tableAt hSeed hValues) hMost strict

/-- An empty value that brings a `$` and a `{` together, so that there is one more reference than at the start. -/
theorem repeated_expansion_ends_of_joined :
    let place : Location := default
    let word (text : String) : Node := .word place .quoted text
    let filename := "$$\x7bA\x7d\x7bB\x7d"
    let root : Node := .toplevel place [.call place "set" [word "A", word ""], .inclusion place filename []]
    let again := fun tree => (resolve "set" true (.ofList [("B", "b")]) tree).tree
    Expands (.ofList [("A", ""), ("B", "b")]) filename 2 "b" ∧ 2 ≤ dollars filename ∧
      ∀ more, again^[2 + more] root = again^[2] root := by
  intro place word filename root again
  obtain ⟨-, hTexts, hTrees⟩ := repeated_expansion_ends
  have hFree : (SymbolTable.ofList [("A", ""), ("B", "b")]).DollarFree := by
    unfold SymbolTable.DollarFree
    decide
  have hSeed : (SymbolTable.ofList [("B", "b")]).DollarFree := by
    unfold SymbolTable.DollarFree
    decide
  have hFirst : expand filename (.ofList [("A", ""), ("B", "b")]) = .expanded "$\x7bB\x7d" := by decide
  have hSecond : expand "$\x7bB\x7d" (.ofList [("A", ""), ("B", "b")]) = .expanded "b" := by decide
  have hExpands := Expands.step hFirst (.step hSecond (.start "b"))
  have hOrder : root.walkOrder.map Prod.snd = [root, .call place "set" [word "A", word ""], word "A", word "",
      .inclusion place filename []] := by with_unfolding_all rfl
  have hNodes {path : Path} {node : Node} (hAt : root.At path node) : node ∈ root.walkOrder.map Prod.snd :=
    List.mem_map_of_mem (Node.mem_walkOrder.mpr hAt)
  refine ⟨hExpands, (hTexts _ hFree filename).1 2 "b" hExpands, hTrees "set" true _ root 2 hSeed ?_ ?_⟩
  · intro path node name value hAt hAssignment
    have hMem := hNodes hAt
    rw [hOrder] at hMem
    obtain ⟨_, _, first, second, rfl, -, -, hValue⟩ := assignment?_eq_some.mp hAssignment
    obtain ⟨-, -, -, rfl⟩ : _ ∧ _ ∧ first = word "A" ∧ second = word "" := by simpa [root, word] using hMem
    cases hValue
    decide
  · intro path place' other options hAt
    have hMem := hNodes hAt
    rw [hOrder] at hMem
    obtain ⟨-, rfl, -⟩ : _ ∧ other = filename ∧ _ := by simpa [root, word] using hMem
    decide

end Resolve
end Listfile
