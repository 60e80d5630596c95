import Listfile.Proofs.Grammar.Nesting
import Listfile.Proofs.Grammar.Refusals
import Listfile.Proofs.Source.Lines
/-! # The spans of a script

All spans of the tree of a script lie within its text, and so do those of errors: they start and stop between
characters. Every node has the line and the column of its first byte and encloses the nodes that it stores, which
lie one after the other in the order of the script.
-/
namespace Listfile
set_option autoImplicit false

open Listfile.Span (Chain)

theorem Boundary.max {source : String} {a b : Nat} (ha : Boundary source a) (hb : Boundary source b) :
    Boundary source (max a b) := by
  rcases Nat.le_total a b with hLe | hLe
  · rwa [Nat.max_eq_right hLe]
  · rwa [Nat.max_eq_left hLe]

theorem Boundary.le {source : String} {offset : Nat} (h : Boundary source offset) : offset ≤ source.utf8ByteSize := by
  obtain ⟨before, after, rfl, rfl⟩ := h
  rw [String.utf8ByteSize_append]
  exact Nat.le_add_right _ _

/-- Whether a span is one of a source, from one place between characters to a later one or to the same. -/
structure Span.LiesIn (source : String) (span : Span) : Prop where
  ordered : span.start ≤ span.stop
  bounded : span.stop ≤ source.utf8ByteSize
  start : Boundary source span.start
  stop : Boundary source span.stop

theorem Span.LiesIn.merge {source : String} (a b : Span) (ha : a.LiesIn source) (hb : b.LiesIn source) :
    (a.merge b).LiesIn source := by
  have hStop := ha.stop.max hb.stop
  refine ⟨?_, hStop.le, ha.start.min hb.start, hStop⟩
  have hOrdered := ha.ordered
  rw [start_merge, stop_merge]
  omega

theorem Span.Spells.liesIn {source text : String} {span : Span} (h : span.Spells source text) : span.LiesIn source := by
  have hStart := h.boundary_start
  obtain ⟨before, after, hSource, rfl⟩ := h
  have hStop : Boundary source (before.utf8ByteSize + text.utf8ByteSize) :=
    ⟨before ++ text, after, hSource, String.utf8ByteSize_append⟩
  exact ⟨Nat.le_add_right _ _, hStop.le, hStart, hStop⟩

theorem liesIn_of_mem_tokenize {source : String} {token : Token} (h : token ∈ tokenize source) :
    token.span.LiesIn source := (spells_of_mem_tokenize h).liesIn

/-- Whether a node has its place in a source: a span of it, the line and the column where that starts, both counted
from one, and the nodes that it stores within its span, one after the other. -/
structure Node.WellPlaced (source : String) (node : Node) : Prop where
  span : node.span.LiesIn source
  position : ∃ before after, source = before ++ after ∧ before.utf8ByteSize = node.span.start ∧
    node.place.position = .after before.toList
  within : ∀ child ∈ node.stored.map Prod.snd,
    node.span.start ≤ child.span.start ∧ child.span.stop ≤ node.span.stop
  apart : (node.stored.map Prod.snd).Pairwise fun a b => a.span.stop ≤ b.span.start ∧ a.span.start < b.span.start

theorem Node.wellPlaced {source : String} {node : Node}
    (hPlaced : node.PlacedIn (LineIndex.ofSource source) (Span.LiesIn source)) (hNested : node.Nested) :
    node.WellPlaced source := by
  obtain ⟨-, hSpan, hPlace⟩ := hPlaced
  refine ⟨hSpan, ?_, fun child hChild => ?_, List.pairwise_map.mp (Chain.pairwise hNested)⟩
  · obtain ⟨before, after, rfl, hSize⟩ := hSpan.start
    refine ⟨before, after, rfl, hSize, ?_⟩
    rw [hPlace, ← LineIndex.position_eq before after, hSize]
    rfl
  · obtain ⟨hStart, -, hStop⟩ := Chain.mem hNested (List.mem_map_of_mem hChild)
    exact ⟨hStart, hStop⟩

/-! ## Accepted scripts -/

theorem chain_tokens (source : String) :
    Chain 0 ((tokenize source).dropLast.map Token.span) source.utf8ByteSize :=
  (ascending_dropLast source).chain (Nat.zero_le _) fun _ hToken =>
    (liesIn_of_mem_tokenize (List.dropLast_subset _ hToken)).bounded

/-- A script reaches from its first token to the end of the text. -/
theorem chain_script (source : String) :
    let span := (scriptPlace (LineIndex.ofSource source) (tokenize source) (Token.ending source).span).span
    span.LiesIn source ∧ Chain span.start ((tokenize source).dropLast.map Token.span) span.stop := by
  have hLast : Token.ending source ∈ tokenize source := by
    rw [tokenize_eq]
    exact List.mem_append_right _ List.mem_cons_self
  have hEnding := liesIn_of_mem_tokenize hLast
  have hChain := chain_tokens source
  have hEq := tokenize_eq source
  cases hTokens : (tokenize source).dropLast with
  | nil =>
    rw [hTokens, List.nil_append] at hEq
    rw [scriptPlace, hEq]
    refine ⟨Span.LiesIn.merge _ _ hEnding hEnding, ?_⟩
    show Chain (Span.merge _ _).start [] (Span.merge _ _).stop
    exact (Span.LiesIn.merge _ _ hEnding hEnding).ordered
  | cons first rest =>
    rw [hTokens] at hChain hEq
    have hFirst : first.span.LiesIn source := by
      apply liesIn_of_mem_tokenize
      rw [hEq]
      exact List.mem_cons_self
    have hMerge : first.span.merge (Token.ending source).span = ⟨first.span.start, source.utf8ByteSize⟩ :=
      Span.merge_of_le (Nat.le_trans hFirst.ordered hFirst.bounded) hFirst.bounded
    rw [scriptPlace, hEq]
    refine ⟨Span.LiesIn.merge _ _ hFirst hEnding, ?_⟩
    show Chain (first.span.merge (Token.ending source).span).start _ (first.span.merge (Token.ending source).span).stop
    rw [hMerge]
    exact ⟨Nat.le_refl _, hChain.2⟩

namespace Derivation.IsOf

variable {script : Derivation .body} {source : String} (h : script.IsOf source)
include h

theorem wellPlaced_tree : (script.tree source).Everywhere (Node.WellPlaced source) := by
  obtain ⟨hSpan, hTokens⟩ := chain_script source
  rw [h.tokens_eq] at hTokens
  obtain ⟨hCalls, hOrdered⟩ := Invocation.chain_calls hTokens
  obtain ⟨hNodes, hNested⟩ := script.nested_nodes (LineIndex.ofSource source) hCalls hOrdered
  have hPlaced : ∀ node ∈ script.nodes (LineIndex.ofSource source),
      node.Everywhere (Node.PlacedIn (LineIndex.ofSource source) (Span.LiesIn source)) :=
    script.placed_nodes Span.LiesIn.merge fun call hCall token hToken =>
      liesIn_of_mem_tokenize (h.mem_tokenize hCall hToken)
  refine Node.everywhere_toplevel.mpr ⟨Node.wellPlaced ⟨Option.some_ne_none _, hSpan, rfl⟩ ?_, fun node hNode => ?_⟩
  · rw [Node.Nested, Node.stored, Node.map_snd_enumerateFrom]
    exact hNodes
  · exact ((hPlaced node hNode).and (hNested node hNode)).imp fun _ hBoth => Node.wellPlaced hBoth.1 hBoth.2

end Derivation.IsOf

/-! ## All scripts -/

/-- Every node of the tree of a script has its place in the text, and the span of an error is one of the text. -/
theorem parse_spans (source : String) :
    (∀ root, parse source = .ok root → root.Everywhere (Node.WellPlaced source)) ∧
    ∀ error, parse source = .error error → error.span.LiesIn source := by
  constructor
  · intro root hParse
    obtain ⟨script, hIsOf, rfl⟩ := exists_script_of_parse hParse
    exact hIsOf.wellPlaced_tree
  · intro error hParse
    have hOrigin : Span.origin.LiesIn source := by
      have hStart : Boundary source 0 := ⟨"", source, String.empty_append.symm, rfl⟩
      exact ⟨Nat.le_refl _, Nat.zero_le _, hStart, hStart⟩
    exact span_of_ofTokens hOrigin Span.LiesIn.merge (fun _ hToken => liesIn_of_mem_tokenize hToken) hParse

/-- A script with blocks within each other and characters of several bytes, and one whose block is never closed. -/
theorem parse_spans_of_nested :
    let source := "\n if(ä)\nforeach(x \"ü\")\n foo((y))\nendforeach()\r\nelse()\nendif()\n"
    let broken := "set(ä)\nwhile(b)\n"
    (∃ root, parse source = .ok root ∧ root.Everywhere (Node.WellPlaced source)) ∧
      ∃ error, parse broken = .error error ∧ error.span.LiesIn broken := by
  intro source broken
  have hSource : (parse source).isOk = true := by decide +kernel
  have hBroken : (parse broken).isOk = false := by decide +kernel
  constructor
  · cases h : parse source with
    | error error =>
      rw [h] at hSource
      cases hSource
    | ok root => exact ⟨root, rfl, (parse_spans source).1 root h⟩
  · cases h : parse broken with
    | error error => exact ⟨error, rfl, (parse_spans broken).2 error h⟩
    | ok root =>
      rw [h] at hBroken
      cases hBroken

end Listfile
