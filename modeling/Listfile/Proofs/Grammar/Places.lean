import Listfile.Proofs.Grammar.Acceptance
import Listfile.Proofs.Source.Lines
import Listfile.Proofs.Tree.ReadBack
/-! # The places of a script

Every token lies within the text, and every node covers tokens only. So all numbers of the places in the tree of a
script are bounded by the size of its text, and every node is of a known kind.
-/
namespace Listfile
set_option autoImplicit false

def Span.Within (limit : Nat) (span : Span) : Prop := span.start ≤ limit ∧ span.stop ≤ limit

theorem Span.Within.merge {limit : Nat} {a b : Span} (ha : a.Within limit) (hb : b.Within limit) :
    (a.merge b).Within limit := by
  obtain ⟨haStart, haStop⟩ := ha
  obtain ⟨hbStart, hbStop⟩ := hb
  constructor
  · rw [start_merge]
    omega
  · rw [stop_merge]
    omega

theorem Span.Spells.within {span : Span} {source text : String} (h : span.Spells source text) :
    span.Within source.utf8ByteSize := by
  obtain ⟨before, after, rfl, rfl⟩ := h
  simp only [Within, String.utf8ByteSize_append]
  omega

/-! ## Tokens -/

theorem within_of_mem_tokenize {source : String} {token : Token} (h : token ∈ tokenize source) :
    token.span.Within source.utf8ByteSize := (spells_of_mem_tokenize h).within

/-! ## Lines and columns -/

theorem LineIndex.fits_locate {source : String} (hSource : source.utf8ByteSize < 0x8000000000000000) {span : Span}
    (h : span.Within source.utf8ByteSize) : ((ofSource source).locate span).Fits := by
  obtain ⟨hStart, hStop⟩ := h
  obtain ⟨hLine, hColumn⟩ := (ofSource source).position_le span.start
  unfold locate Location.Fits Json.Fits
  constructor
  · show span.start < _
    omega
  constructor
  · show span.stop < _
    omega
  constructor
  · show ((ofSource source).position span.start).line < _
    omega
  · show ((ofSource source).position span.start).column < _
    omega

/-! ## Nodes -/

/-- Whether a node is of a known kind, its span has a property, and it has the line and column of its start. -/
def Node.PlacedIn (lines : LineIndex) (allowed : Span → Prop) (node : Node) : Prop :=
  node.kind? ≠ none ∧ allowed node.span ∧ node.place = lines.locate node.span

/-- Whether a node is of a known kind, lies before the limit, and has the line and column of its start. -/
def Node.Placed (lines : LineIndex) (limit : Nat) (node : Node) : Prop :=
  node.kind? ≠ none ∧ node.span.Within limit ∧ node.place = lines.locate node.span

/-- Whether the spans of all tokens of an invocation have a property. -/
def Invocation.Uses (allowed : Span → Prop) (call : Invocation) : Prop := ∀ token ∈ call.tokens, allowed token.span

def Invocation.Within (limit : Nat) (call : Invocation) : Prop := ∀ token ∈ call.tokens, token.span.Within limit

section nodes

variable {lines : LineIndex} {allowed : Span → Prop}

theorem Token.placed_word {token : Token} (h : allowed token.span) :
    (token.word lines).Everywhere (Node.PlacedIn lines allowed) := by
  unfold Token.word
  simp only
  split <;> exact (Node.everywhere_leaf rfl).mpr ⟨Option.some_ne_none _, h, rfl⟩

variable (hMerge : ∀ a b, allowed a → allowed b → allowed (a.merge b))

namespace Invocation.Uses

variable {call : Invocation} (h : call.Uses allowed)

include h

theorem name : allowed call.name.span := h _ List.mem_cons_self

include hMerge

theorem span : allowed call.span := hMerge _ _ h.name (h _ (List.mem_append_right _ List.mem_cons_self))

theorem placed_call : (call.call lines).Everywhere (Node.PlacedIn lines allowed) := by
  refine Node.everywhere_call.mpr ⟨⟨Option.some_ne_none _, h.span hMerge, rfl⟩, fun word hWord => ?_⟩
  obtain ⟨token, hToken, rfl⟩ := List.mem_map.mp hWord
  refine Token.placed_word (h token ?_)
  simp [tokens, hToken]

end Invocation.Uses

include hMerge

theorem Invocation.placed_clause (form : ClauseForm) {header : Invocation} {body : List Node}
    (hHeader : header.Uses allowed) (hBody : ∀ node ∈ body, node.Everywhere (Node.PlacedIn lines allowed)) :
    (header.clause lines form body).Everywhere (Node.PlacedIn lines allowed) := by
  have hSpan : allowed (header.clause lines form body).span := by
    unfold clause
    cases hLast : body.getLast? with
    | none => exact hHeader.span hMerge
    | some last => exact hMerge _ _ (hHeader.span hMerge) (hBody last (List.mem_of_getLast? hLast)).self.2.1
  exact Node.everywhere_clause.mpr ⟨⟨Option.some_ne_none _, hSpan, rfl⟩, hHeader.placed_call hMerge, hBody⟩

theorem Derivation.placed_nodes {phrase : Phrase} (d : Derivation phrase) (h : ∀ call ∈ d.calls, call.Uses allowed) :
    ∀ node ∈ d.nodes lines, node.Everywhere (Node.PlacedIn lines allowed) := by
  induction d with
  | empty | noElseif | noElse => exact List.forall_mem_nil _
  | append first rest ihFirst ihRest =>
    obtain ⟨hFirst, hRest⟩ := List.forall_mem_append.mp h
    exact List.forall_mem_append.mpr ⟨ihFirst hFirst, ihRest hRest⟩
  | plain call =>
    rw [nodes, List.forall_mem_singleton]
    exact (List.forall_mem_singleton.mp h).placed_call hMerge
  | inclusion call =>
    rw [nodes, List.forall_mem_singleton]
    exact (Node.everywhere_leaf rfl).mpr
      ⟨Option.some_ne_none _, (List.forall_mem_singleton.mp h).span hMerge, rfl⟩
  | block form opener hOpener body closer hCloser ih =>
    obtain ⟨hOpener, hRest⟩ := List.forall_mem_cons.mp h
    obtain ⟨hBody, hCloser⟩ := List.forall_mem_append.mp hRest
    have hCloser := List.forall_mem_singleton.mp hCloser
    rw [nodes, List.forall_mem_singleton]
    refine Node.everywhere_block.mpr ⟨?_, hOpener.placed_call hMerge, ih hBody, hCloser.placed_call hMerge⟩
    exact ⟨Option.some_ne_none _, hMerge _ _ (hOpener.span hMerge) (hCloser.span hMerge), rfl⟩
  | conditional opener hOpener body elseifs elseArm closer hCloser ihBody ihElseifs ihElseArm =>
    obtain ⟨hOpener, hRest⟩ := List.forall_mem_cons.mp h
    obtain ⟨hBody, hRest⟩ := List.forall_mem_append.mp hRest
    obtain ⟨hElseifs, hRest⟩ := List.forall_mem_append.mp hRest
    obtain ⟨hElseArm, hCloser⟩ := List.forall_mem_append.mp hRest
    have hCloser := List.forall_mem_singleton.mp hCloser
    have hIf := Invocation.placed_clause hMerge .ifClause hOpener (ihBody hBody)
    rw [nodes, List.forall_mem_singleton]
    refine Node.everywhere_conditional.mpr ⟨?_, hIf, ihElseifs hElseifs, ?_, hCloser.placed_call hMerge⟩
    · exact ⟨Option.some_ne_none _, hMerge _ _ hIf.self.2.1 (hCloser.span hMerge), rfl⟩
    · intro arm hArm
      exact ihElseArm hElseArm arm (List.mem_of_head? hArm)
  | elseif header hHeader body rest ihBody ihRest =>
    obtain ⟨hHeader, hOthers⟩ := List.forall_mem_cons.mp h
    obtain ⟨hBody, hRest⟩ := List.forall_mem_append.mp hOthers
    exact List.forall_mem_cons.mpr ⟨Invocation.placed_clause hMerge _ hHeader (ihBody hBody), ihRest hRest⟩
  | elseBranch header hHeader body ih =>
    obtain ⟨hHeader, hBody⟩ := List.forall_mem_cons.mp h
    rw [nodes, List.forall_mem_singleton]
    exact Invocation.placed_clause hMerge _ hHeader (ih hBody)

end nodes

theorem Derivation.IsOf.within {script : Derivation .body} {source : String} (h : script.IsOf source) :
    ∀ call ∈ script.calls, call.Within source.utf8ByteSize := by
  intro call hCall token hToken
  exact within_of_mem_tokenize (h.mem_tokenize hCall hToken)

namespace Node

theorem placed_tree {script : Derivation .body} {source : String} (h : script.IsOf source) :
    (script.tree source).Everywhere (Placed (LineIndex.ofSource source) source.utf8ByteSize) := by
  have hStop : (Token.ending source).span.Within source.utf8ByteSize := ⟨Nat.le_refl _, Nat.le_refl _⟩
  have hStart : Span.Within source.utf8ByteSize
      (((tokenize source).head?.map (·.span)).getD (Token.ending source).span) := by
    cases hHead : (tokenize source).head? with
    | none => exact hStop
    | some token => exact within_of_mem_tokenize (List.mem_of_head? hHead)
  exact everywhere_toplevel.mpr ⟨⟨Option.some_ne_none _, hStart.merge hStop, rfl⟩,
    script.placed_nodes (fun _ _ => Span.Within.merge) h.within⟩

theorem Placed.sound {source : String} (hSource : source.utf8ByteSize < 0x8000000000000000) {node : Node}
    (h : node.Placed (LineIndex.ofSource source) source.utf8ByteSize) : node.Sound := by
  obtain ⟨hKind, hWithin, hPlace⟩ := h
  have hFits : node.place.Fits := by
    rw [hPlace]
    exact LineIndex.fits_locate hSource hWithin
  cases node with
  | unrecognized => exact absurd rfl hKind
  | _ => exact hFits

/-- The tree of a script reads back: all of its nodes are of known kinds. -/
theorem readable_of_parse {source : String} (hSource : source.utf8ByteSize < 0x8000000000000000) {root : Node}
    (h : parse source = .ok root) : root.Everywhere Readable := by
  obtain ⟨script, hIsOf, rfl⟩ := exists_script_of_parse h
  refine (placed_tree hIsOf).imp fun node hPlaced => ⟨hPlaced.sound hSource, ?_⟩
  cases node with
  | unrecognized => exact absurd rfl hPlaced.1
  | _ => trivial

theorem sound_of_parse {source : String} (hSource : source.utf8ByteSize < 0x8000000000000000) {root : Node}
    (h : parse source = .ok root) : root.Everywhere Sound := (readable_of_parse hSource h).imp fun _ h => h.1

end Node
end Listfile
