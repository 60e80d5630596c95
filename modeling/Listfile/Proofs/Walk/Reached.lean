import Listfile.Proofs.Walk.Dispatch
/-! # Nodes that a walk reaches

A handler may put any node in the place of the one it is given, so that a walk goes on into children which were not
there when it started, and looks for them in the slots of a kind that the node no longer has. What a walk reaches is
therefore no part of a tree: it is a trace of nodes with what their handlers left of them, in which each node but the
first is held by an earlier one.
-/
namespace Listfile
set_option autoImplicit false

/-- A node of known kind that a walk enters: the key and the visit for which a handler is looked up there, the node that
the handler is given, and the one it leaves. Where no handler is registered, the two are the same. -/
structure Reached where
  key : HandlerKey
  visit : Visit
  before : Node
  after : Node

namespace Reached

def Faithful (entry : Reached) : Prop :=
  entry.before.kind? = some entry.visit.kind ∧ entry.key = entry.visit.kind.schema.handler

/-- Whether a node left by its handler has a child in a slot that the schema lists for the kind before the handler. -/
def Holds (parent : Reached) (child : Node) : Prop :=
  (∃ slot ∈ parent.visit.kind.schema.single, parent.after.child? slot = some child) ∨
    ∃ slot ∈ parent.visit.kind.schema.multi, child ∈ parent.after.children slot

/-- Whether a node is held by the last one reached before it that is one level above it. -/
def HasParent (earlier : List Reached) (entry : Reached) : Prop :=
  ∃ before parent between, earlier = before ++ parent :: between ∧ parent.visit.depth + 1 = entry.visit.depth ∧
    (∀ other ∈ between, parent.visit.depth < other.visit.depth) ∧ parent.Holds entry.before ∧
    parent.after.kind?.isSome

theorem Holds.kind? {parent : Reached} {child : Node} (h : parent.Holds child) : parent.after.kind?.isSome := by
  rcases h with ⟨slot, -, hChild⟩ | ⟨slot, -, hMem⟩
  · exact Node.kind?_of_mem_stored (Node.mem_stored.mpr (Node.get?_of_child? hChild))
  · obtain ⟨index, hGet⟩ := List.mem_iff_getElem?.mp hMem
    have hStep := Node.get?_of_children (List.ne_nil_of_mem hMem) index
    exact Node.kind?_of_mem_stored (Node.mem_stored.mpr (hStep.trans hGet))

theorem HasParent.append_left {earlier : List Reached} {entry : Reached} (h : entry.HasParent earlier)
    (first : List Reached) : entry.HasParent (first ++ earlier) := by
  obtain ⟨before, parent, between, rfl, hParent⟩ := h
  exact ⟨first ++ before, parent, between, (List.append_assoc ..).symm, hParent⟩

end Reached

namespace Walk

/-- What is true of the nodes reached up to any point of a walk. -/
structure Disciplined (root : Node) (trace : List Reached) : Prop where
  faithful : ∀ entry ∈ trace, entry.Faithful
  start : ∀ entry rest, trace = entry :: rest → entry.before = root ∧ entry.visit.depth = 0
  consecutive : ∀ earlier previous entry rest, trace = earlier ++ previous :: entry :: rest →
    1 ≤ entry.visit.depth ∧ entry.visit.depth ≤ previous.visit.depth + 1
  parent : ∀ earlier entry rest, trace = earlier ++ entry :: rest → earlier ≠ [] → entry.HasParent earlier

/-! ## Traces as trees -/

/-- The trace of walks below one another: each node that is entered at the given depth is among the expected ones, and
is followed by what is entered below it, out of what it holds. -/
inductive Entered : Nat → (Node → Prop) → List Reached → Prop
  | none {depth : Nat} {expected : Node → Prop} : Entered depth expected []
  | next {expected : Node → Prop} {entry : Reached} {below rest : List Reached} : expected entry.before →
      entry.Faithful → Entered (entry.visit.depth + 1) entry.Holds below → Entered entry.visit.depth expected rest →
      Entered entry.visit.depth expected (entry :: (below ++ rest))

/-- The trace of a walk that starts at a node, as far as it has come. -/
inductive Walked (depth : Nat) (node : Node) : List Reached → Prop
  | none : Walked depth node []
  | entered {entry : Reached} {below : List Reached} : entry.before = node → entry.visit.depth = depth →
      entry.Faithful → Entered (depth + 1) entry.Holds below → Walked depth node (entry :: below)

namespace Entered

variable {depth : Nat} {expected : Node → Prop} {trace : List Reached}

theorem append {others : List Reached} (h : Entered depth expected trace) (hOthers : Entered depth expected others) :
    Entered depth expected (trace ++ others) := by
  induction h with
  | none => exact hOthers
  | next hExpected hFaithful hBelow _ _ ih =>
    rw [List.cons_append, List.append_assoc]
    exact .next hExpected hFaithful hBelow (ih hOthers)

theorem faithful (h : Entered depth expected trace) : ∀ entry ∈ trace, entry.Faithful := by
  induction h with
  | none => exact List.forall_mem_nil _
  | next _ hFaithful _ _ ihBelow ihRest =>
    exact List.forall_mem_cons.mpr ⟨hFaithful, List.forall_mem_append.mpr ⟨ihBelow, ihRest⟩⟩

theorem depth_le (h : Entered depth expected trace) : ∀ entry ∈ trace, depth ≤ entry.visit.depth := by
  induction h with
  | none => exact List.forall_mem_nil _
  | next _ _ _ _ ihBelow ihRest =>
    refine List.forall_mem_cons.mpr ⟨Nat.le_refl _, List.forall_mem_append.mpr ⟨fun other hOther => ?_, ihRest⟩⟩
    exact Nat.le_of_succ_le (ihBelow other hOther)

/-- A node is expected where the trace starts, or has its parent within the trace. -/
theorem expected_or_hasParent (h : Entered depth expected trace) {earlier rest : List Reached} {entry : Reached}
    (hTrace : trace = earlier ++ entry :: rest) :
    entry.visit.depth = depth ∧ expected entry.before ∨ entry.HasParent earlier := by
  induction h generalizing earlier rest with
  | none => simp at hTrace
  | @next expected first below others hExpected _ hBelow _ ihBelow ihRest =>
    cases earlier with
    | nil =>
      obtain ⟨rfl, -⟩ := List.cons.inj hTrace
      exact .inl ⟨rfl, hExpected⟩
    | cons _ earlier =>
      obtain ⟨rfl, hTail⟩ := List.cons.inj hTrace
      have hInBelow (between late : List Reached) (hSplit : below = between ++ entry :: late) :
          entry.HasParent (first :: between) := by
        rcases ihBelow hSplit with ⟨hDepth, hHolds⟩ | hParent
        · have hDeeper : ∀ other ∈ between, first.visit.depth < other.visit.depth := fun other hOther =>
            hBelow.depth_le other (by rw [hSplit]; exact List.mem_append_left _ hOther)
          exact ⟨[], first, between, rfl, hDepth.symm, hDeeper, hHolds, hHolds.kind?⟩
        · exact hParent.append_left [first]
      rcases List.append_eq_append_iff.mp hTail with ⟨between, rfl, hSplit⟩ | ⟨tail, hBelowSplit, hSplit⟩
      · rcases ihRest hSplit with hFirst | hParent
        · exact .inl hFirst
        · exact .inr (hParent.append_left (first :: below))
      · cases tail with
        | nil =>
          -- The node is the first one after those below.
          rw [List.append_nil] at hBelowSplit
          rcases ihRest (show others = [] ++ entry :: rest from hSplit.symm) with hFirst | ⟨before, _, _, hNil, -⟩
          · exact .inl hFirst
          · simp at hNil
        | cons head tail =>
          obtain ⟨rfl, -⟩ := List.cons.inj hSplit
          exact .inr (hInBelow earlier tail hBelowSplit)

end Entered

theorem Walked.entered_of {depth : Nat} {node : Node} {expected : Node → Prop} {trace : List Reached}
    (h : Walked depth node trace) (hNode : expected node) : Entered depth expected trace := by
  cases h with
  | none => exact .none
  | @entered entry below hBefore hDepth hFaithful hBelow =>
    subst hBefore hDepth
    rw [← List.append_nil below]
    exact .next hNode hFaithful hBelow .none

theorem Walked.disciplined {root : Node} {trace : List Reached} (h : Walked 0 root trace) : Disciplined root trace := by
  have hParent (earlier : List Reached) (entry : Reached) (rest : List Reached)
      (hTrace : trace = earlier ++ entry :: rest) (hEarlier : earlier ≠ []) : entry.HasParent earlier := by
    cases h with
    | none => simp at hTrace
    | @entered first below hBefore hDepth hFaithful hBelow =>
      obtain ⟨_, tail, rfl⟩ := List.exists_cons_of_ne_nil hEarlier
      obtain ⟨rfl, hTail⟩ := List.cons.inj hTrace
      rcases hBelow.expected_or_hasParent hTail with ⟨hEntry, hHolds⟩ | hParent
      · have hDeeper : ∀ other ∈ tail, first.visit.depth < other.visit.depth := fun other hOther => by
          rw [hDepth]
          exact hBelow.depth_le other (by rw [hTail]; exact List.mem_append_left _ hOther)
        exact ⟨[], first, tail, rfl, by omega, hDeeper, hHolds, hHolds.kind?⟩
      · exact hParent.append_left [first]
  constructor
  · have hEntered : Entered 0 (· = root) trace := h.entered_of rfl
    exact hEntered.faithful
  · rintro entry rest rfl
    cases h with
    | entered hBefore hDepth => exact ⟨hBefore, hDepth⟩
  · intro earlier previous entry rest hTrace
    obtain ⟨before, parent, between, hEarlier, hDepth, hDeeper, -⟩ :=
      hParent (earlier ++ [previous]) entry rest (by rw [hTrace, List.append_assoc]; rfl) (by simp)
    -- The one before is the parent itself or stands below it.
    have hMem : previous ∈ parent :: between := by
      apply List.mem_of_getLast?
      rw [← List.getLast?_append_cons before, ← hEarlier, List.getLast?_concat]
    have hPrevious : parent.visit.depth ≤ previous.visit.depth := by
      rcases List.mem_cons.mp hMem with rfl | hBetween
      · exact Nat.le_refl _
      · exact Nat.le_of_lt (hDeeper previous hBetween)
    omega
  · exact hParent

end Walk
end Listfile
