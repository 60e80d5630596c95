import Listfile.Source.Span
/-! # Spans one after the other

Spans form a chain between two offsets if none of them is empty and each one starts where the one before it stops, or
later. Chains are joined and taken apart at any place.
-/
namespace Listfile.Span
set_option autoImplicit false

def Chain : Nat → List Span → Nat → Prop
  | lo, [], hi => lo ≤ hi
  | lo, span :: rest, hi => lo ≤ span.start ∧ span.start < span.stop ∧ Chain span.stop rest hi

/-- From a span to a later one. -/
theorem merge_of_le {a b : Span} (hStart : a.start ≤ b.start) (hStop : a.stop ≤ b.stop) :
    a.merge b = ⟨a.start, b.stop⟩ := by
  rw [merge, Nat.min_eq_left hStart, Nat.max_eq_right hStop]

theorem chain_singleton {lo hi : Nat} {span : Span} :
    Chain lo [span] hi ↔ lo ≤ span.start ∧ span.start < span.stop ∧ span.stop ≤ hi := Iff.rfl

theorem chain_append {lo hi : Nat} {front back : List Span} :
    Chain lo (front ++ back) hi ↔ ∃ middle, Chain lo front middle ∧ Chain middle back hi := by
  induction front generalizing lo with
  | nil =>
    constructor
    · intro h
      exact ⟨lo, Nat.le_refl _, h⟩
    · rintro ⟨middle, hLe, h⟩
      cases back with
      | nil => exact Nat.le_trans hLe h
      | cons first rest => exact ⟨Nat.le_trans hLe h.1, h.2⟩
  | cons first rest ih =>
    constructor
    · rintro ⟨hStart, hStop, h⟩
      obtain ⟨middle, hRest, hBack⟩ := ih.mp h
      exact ⟨middle, ⟨hStart, hStop, hRest⟩, hBack⟩
    · rintro ⟨middle, ⟨hStart, hStop, hRest⟩, hBack⟩
      exact ⟨hStart, hStop, ih.mpr ⟨middle, hRest, hBack⟩⟩

namespace Chain

variable {lo hi : Nat} {spans : List Span}

theorem le (h : Chain lo spans hi) : lo ≤ hi := by
  induction spans generalizing lo with
  | nil => exact h
  | cons first rest ih =>
    obtain ⟨hStart, hStop, hRest⟩ := h
    have hLe := ih hRest
    omega

theorem mono {lo' hi' : Nat} (hLo : lo' ≤ lo) (hHi : hi ≤ hi') (h : Chain lo spans hi) : Chain lo' spans hi' := by
  induction spans generalizing lo lo' with
  | nil => exact Nat.le_trans hLo (Nat.le_trans h hHi)
  | cons first rest ih =>
    obtain ⟨hStart, hStop, hRest⟩ := h
    exact ⟨Nat.le_trans hLo hStart, hStop, ih (Nat.le_refl _) hRest⟩

theorem mem (h : Chain lo spans hi) {span : Span} (hSpan : span ∈ spans) :
    lo ≤ span.start ∧ span.start < span.stop ∧ span.stop ≤ hi := by
  obtain ⟨front, back, rfl⟩ := List.append_of_mem hSpan
  obtain ⟨middle, hFront, hStart, hStop, hBack⟩ := chain_append.mp h
  exact ⟨Nat.le_trans hFront.le hStart, hStop, hBack.le⟩

theorem pairwise (h : Chain lo spans hi) : spans.Pairwise fun a b => a.stop ≤ b.start ∧ a.start < b.start := by
  induction spans generalizing lo with
  | nil => exact .nil
  | cons first rest ih =>
    obtain ⟨-, hStop, hRest⟩ := h
    refine List.pairwise_cons.mpr ⟨fun other hOther => ?_, ih hRest⟩
    have hAfter := hRest.mem hOther
    omega

/-- What reaches from the first span of a chain to the last one encloses the chain, and has its place in a longer one. -/
theorem enclose {first last : Span} {inner : List Span} (h : Chain lo (first :: inner ++ [last]) hi) :
    Chain lo [first.merge last] hi ∧
      Chain (first.merge last).start (first :: inner ++ [last]) (first.merge last).stop := by
  obtain ⟨middle, ⟨hStart, hFirst, hInner⟩, hLo, hLast, hHi⟩ := chain_append.mp h
  have hMiddle := hInner.le
  have hMerge : first.merge last = ⟨first.start, last.stop⟩ := merge_of_le (by omega) (by omega)
  rw [hMerge]
  constructor
  · refine chain_singleton.mpr ⟨hStart, ?_, hHi⟩
    show first.start < last.stop
    omega
  · exact chain_append.mpr ⟨middle, ⟨Nat.le_refl _, hFirst, hInner⟩, hLo, hLast, Nat.le_refl _⟩

end Chain
end Listfile.Span
