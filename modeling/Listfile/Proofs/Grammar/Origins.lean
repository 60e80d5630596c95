import Listfile.Proofs.Grammar.Leaves
import Listfile.Proofs.Related
import Listfile.Proofs.Tree.Position
/-! # Where the calls of a tree come from

Wherever a call or an inclusion stands in the tree of a script, it is one of the leaves and stands for an invocation.
The script has at its span the text from the name of the invocation to the closing parenthesis.
-/
namespace Listfile
set_option autoImplicit false

namespace Node

theorem mem_of_mem_enumerateFrom {slot : Slot} {start : Nat} {nodes : List Node} {step : Step} {node : Node}
    (h : (step, node) ∈ enumerateFrom slot start nodes) : node ∈ nodes := by
  rw [← map_snd_enumerateFrom slot start nodes]
  exact List.mem_map_of_mem h

theorem mem_leavesAll {leaf : Node} {nodes : List Node} :
    leaf ∈ leavesAll nodes ↔ ∃ node ∈ nodes, leaf ∈ node.leaves := by
  induction nodes with
  | nil => simp [leavesAll]
  | cons node rest ih => simp [leavesAll, ih]

theorem leaves_subset_of_mem_stored {node child : Node} {step : Step} (h : (step, child) ∈ node.stored)
    (hCall : node.kind? ≠ some .call) : child.leaves ⊆ node.leaves := by
  intro leaf hLeaf
  have hAll {slot : Slot} {start : Nat} {nodes : List Node} (h : (step, child) ∈ enumerateFrom slot start nodes) :
      leaf ∈ leavesAll nodes := mem_leavesAll.mpr ⟨child, mem_of_mem_enumerateFrom h, hLeaf⟩
  have hOne {slot : Slot} {start : Nat} {other : Node} (h : (step, child) ∈ enumerateFrom slot start [other]) :
      leaf ∈ other.leaves := by
    rw [← List.mem_singleton.mp (mem_of_mem_enumerateFrom h)]
    exact hLeaf
  cases node with
  | toplevel => exact hAll h
  | block =>
    simp only [stored, List.mem_append] at h
    rcases h with (h | h) | h
    · exact List.mem_append_left _ (hOne h)
    · exact List.mem_append_right _ (List.mem_append_left _ (hAll h))
    · exact List.mem_append_right _ (List.mem_append_right _ (hOne h))
  | conditional place ifClause elseifs elseClause footer =>
    simp only [stored, List.mem_append] at h
    simp only [leaves, List.mem_append]
    rcases h with ((h | h) | h) | h
    · exact .inl (hOne h)
    · exact .inr (.inl (hAll h))
    · cases elseClause with
      | none => cases h
      | some arm => exact .inr (.inr (.inl (hOne h)))
    · exact .inr (.inr (.inr (hOne h)))
  | clause =>
    simp only [stored, List.mem_append] at h
    rcases h with h | h
    · exact List.mem_append_left _ (hOne h)
    · exact List.mem_append_right _ (hAll h)
  | call => exact absurd rfl hCall
  | inclusion | word | unrecognized => cases h

/-- Where the leaves of a tree stand for invocations, there are no calls, inclusions or unknown nodes besides. -/
theorem mem_leaves_of_at {root target : Node} {path : Path} (h : root.At path target)
    (hLeaves : ∀ leaf ∈ root.leaves, ∃ call, leaf.StandsFor call)
    (hTarget : target.kind? = some .call ∨ target.kind? = some .inclusion ∨ target.kind? = none) :
    target ∈ root.leaves := by
  induction h with
  | here node =>
    cases node with
    | block _ form => cases form <;> simp [kind?, BlockForm.kind] at hTarget
    | clause _ form => cases form <;> simp [kind?, ClauseForm.kind] at hTarget
    | toplevel | conditional | word => simp [kind?] at hTarget
    | call | inclusion | unrecognized => simp [leaves]
  | @step node child target step path hStored hAt ih =>
    by_cases hCall : node.kind? = some .call
    · -- What a call stores are words, and these store nothing.
      cases node with
      | call place name arguments =>
        obtain ⟨call, hStands⟩ := hLeaves (.call place name arguments) (by simp [leaves])
        cases hStands with
        | call hArguments =>
          obtain ⟨token, -, hWord⟩ := exists_of_forall₂ hArguments (mem_of_mem_enumerateFrom hStored)
          obtain ⟨_, _, _, rfl, -⟩ := hWord
          cases hAt with
          | here => simp [kind?] at hTarget
          | step hNone => cases hNone
      | block _ form => cases form <;> simp [kind?, BlockForm.kind] at hCall
      | clause _ form => cases form <;> simp [kind?, ClauseForm.kind] at hCall
      | _ => simp [kind?] at hCall
    · have hSubset := leaves_subset_of_mem_stored hStored hCall
      exact hSubset (ih (fun leaf hLeaf => hLeaves leaf (hSubset hLeaf)) hTarget)

end Node

/-- A call or an inclusion in a tree is related to an invocation as all leaves are. -/
theorem Derivation.exists_of_at {script : Derivation .body} {source : String} {related : Node → Invocation → Prop}
    (hLeaves : List.Forall₂ (fun leaf call => leaf.StandsFor call ∧ related leaf call) (script.tree source).leaves
      script.calls) {path : Path} {node : Node} (hAt : (script.tree source).At path node)
    (hNode : node.kind? = some .call ∨ node.kind? = some .inclusion ∨ node.kind? = none) :
    ∃ call ∈ script.calls, node.StandsFor call ∧ related node call := by
  apply exists_of_forall₂ hLeaves
  apply Node.mem_leaves_of_at hAt _ hNode
  intro leaf hLeaf
  obtain ⟨call, -, hStands, -⟩ := exists_of_forall₂ hLeaves hLeaf
  exact ⟨call, hStands⟩

namespace Derivation.IsOf

variable {script : Derivation .body} {source : String} (h : script.IsOf source)

include h

theorem spells_call {call : Invocation} (hCall : call ∈ script.calls) :
    ∃ middle, call.span.Spells source (call.name.text ++ middle ++ ")") := by
  have hTokens {token : Token} (hToken : token ∈ call.tokens) := h.mem_tokenize hCall hToken
  have hName := spells_of_mem_tokenize (hTokens (show call.name ∈ call.tokens by simp [Invocation.tokens]))
  have hMem := hTokens (show call.closing ∈ call.tokens by simp [Invocation.tokens])
  have hKind := (h.wellFormed call hCall).closing
  have hClosing := spells_of_mem_tokenize hMem
  rw [Lexer.text_of_rightParen (mem_lexemes_of_mem_tokenize hMem (by simp [hKind])) hKind] at hClosing
  obtain ⟨offset, hAscending⟩ : ∃ offset, Token.Ascending offset call.tokens := by
    have hAll := ascending_dropLast source
    obtain ⟨front, back, hCalls⟩ := List.append_of_mem hCall
    rw [h.tokens_eq, hCalls, List.flatMap_append, List.flatMap_cons] at hAll
    obtain ⟨-, middle, -, -, hRest⟩ := hAll.of_append
    exact ⟨middle, hRest.of_append.1⟩
  rw [Invocation.span_eq hAscending]
  apply hName.join hClosing
  have hBetween := hAscending.2.2
  exact (hBetween.of_mem (show call.closing ∈ _ by simp)).1

/-- The invocation that a call or an inclusion in a tree stands for. -/
theorem exists_standsFor {path : Path} {node : Node} (hAt : (script.tree source).At path node)
    (hNode : node.kind? = some .call ∨ node.kind? = some .inclusion ∨ node.kind? = none) :
    ∃ call ∈ script.calls, node.StandsFor call ∧ node.span = call.span := by
  apply exists_of_at _ hAt hNode
  rw [Derivation.tree, Node.leaves]
  apply script.forall₂_leaves
  · intro call hCall
    exact ⟨h.standsFor_call hCall _, rfl⟩
  · intro call hCall hName hArguments
    exact ⟨h.standsFor_inclusion hCall hName hArguments _, rfl⟩

theorem exists_call {path : Path} {place : Location} {name : String} {arguments : List Node}
    (hAt : (script.tree source).At path (.call place name arguments)) :
    ∃ call ∈ script.calls, Node.call place name arguments = call.call (LineIndex.ofSource source) := by
  have hLeaves : List.Forall₂ (fun leaf call => leaf.StandsFor call ∧
        (leaf.kind? = some .call → leaf = call.call (LineIndex.ofSource source)))
      (script.tree source).leaves script.calls := by
    rw [Derivation.tree, Node.leaves]
    apply script.forall₂_leaves
    · intro call hCall
      exact ⟨h.standsFor_call hCall _, fun _ => rfl⟩
    · intro call hCall hName hArguments
      exact ⟨h.standsFor_inclusion hCall hName hArguments _, fun hKind => by cases hKind⟩
  obtain ⟨call, hCall, -, hEq⟩ := exists_of_at hLeaves hAt (.inl rfl)
  exact ⟨call, hCall, hEq rfl⟩

end Derivation.IsOf
end Listfile
