import Listfile.Proofs.Reference
import Listfile.Proofs.Source.Lines
/-! # What expansion replaces

A text with a reference falls in one way into what is before the first `${`, the name up to the first `}` after that,
and what is after it. Expansion puts the value of the name between the first part and the last one. It depends on no
other reference that there may be, in the text or in the value.
-/
namespace Listfile
set_option autoImplicit false

namespace Reference

def written (reference : Reference) : String := "$\x7b" ++ reference.name ++ "\x7d"

/-- Whether a text is what a reference says it is, with no `${` before the reference and no `}` in the name. -/
structure IsFirstOf (reference : Reference) (text : String) : Prop where
  text_eq : text = reference.before ++ reference.written ++ reference.after
  opening : ¬['$', '{'] <:+: reference.before.toList
  closing : '}' ∉ reference.name.toList

variable {text : String} {reference : Reference}

theorem isFirstOf_iff : reference.IsFirstOf text ↔
    OpensAt text reference.before (reference.name ++ "\x7d" ++ reference.after) ∧ '}' ∉ reference.name.toList := by
  have hText : reference.before ++ reference.written ++ reference.after =
      reference.before ++ "$\x7b" ++ (reference.name ++ "\x7d" ++ reference.after) := by
    simp only [written, String.append_assoc]
  constructor
  · rintro ⟨hEq, hOpening, hClosing⟩
    exact ⟨⟨hEq.trans hText, hOpening⟩, hClosing⟩
  · rintro ⟨⟨hEq, hOpening⟩, hClosing⟩
    exact ⟨hEq.trans hText.symm, hOpening, hClosing⟩

theorem scan_eq_found_iff : scan text = .found reference ↔ reference.IsFirstOf text := by
  rw [isFirstOf_iff]
  constructor
  · intro h
    rcases scan_cases text with hScan | ⟨-, hScan⟩ | ⟨before, name, after, hOpens, hName, hScan⟩
    · rw [hScan] at h
      cases h
    · rw [hScan] at h
      cases h
    · cases hScan.symm.trans h
      exact ⟨hOpens, hName⟩
  · rintro ⟨hOpens, hName⟩
    exact scan_of_terminated hOpens hName

theorem scan_eq_absent_iff : scan text = .absent ↔ ¬['$', '{'] <:+: text.toList := by
  rw [← splitAtOpening?_eq_none, scan]
  cases splitAtOpening? text.toList with
  | none => exact iff_of_true rfl rfl
  | some parts =>
    apply iff_of_false
    · simp only
      split <;> simp
    · simp

theorem opens_of_scan_ne (h : scan text ≠ .absent) : ['$', '{'] <:+: text.toList := by
  by_contra hNone
  exact h (scan_eq_absent_iff.mpr hNone)

namespace IsFirstOf

theorem unique {other : Reference} (h : reference.IsFirstOf text) (hOther : other.IsFirstOf text) :
    reference = other := by
  have hScan := scan_eq_found_iff.mpr h
  rw [scan_eq_found_iff.mpr hOther] at hScan
  exact (Scan.found.inj hScan).symm

/-- What is after a reference may be any other text. -/
theorem continued (h : reference.IsFirstOf text) (after : String) :
    IsFirstOf { reference with after } (reference.before ++ reference.written ++ after) := ⟨rfl, h.opening, h.closing⟩

theorem stop_eq (reference : Reference) : reference.stop = reference.start + reference.written.utf8ByteSize := by
  have hOpening : "$\x7b".utf8ByteSize = 2 := by decide
  have hClosing : "\x7d".utf8ByteSize = 1 := by decide
  rw [stop, written, String.utf8ByteSize_append, String.utf8ByteSize_append, hOpening, hClosing]
  omega

theorem spells (h : reference.IsFirstOf text) :
    Span.Spells ⟨reference.start, reference.stop⟩ text reference.written :=
  ⟨reference.before, reference.after, h.text_eq, by rw [stop_eq]; rfl⟩

end IsFirstOf

end Reference

section expand

variable {text : String} {symbols : SymbolTable}

theorem expand_eq_noReference : expand text symbols = .noReference ↔ ¬['$', '{'] <:+: text.toList := by
  rw [← Reference.scan_eq_absent_iff, expand]
  cases Reference.scan text with
  | absent => simp
  | unterminated => simp
  | found reference =>
    simp only
    split <;> simp

theorem expand_of_isFirstOf {reference : Reference} {value : String} (h : reference.IsFirstOf text)
    (hValue : symbols.lookup? reference.name = some value) :
    expand text symbols = .expanded (reference.before ++ value ++ reference.after) := by
  simp only [expand, Reference.scan_eq_found_iff.mpr h, hValue]

theorem expand_eq_expanded {result : String} : expand text symbols = .expanded result ↔
    ∃ reference value, Reference.IsFirstOf reference text ∧ symbols.lookup? reference.name = some value ∧
      result = reference.before ++ value ++ reference.after := by
  constructor
  · intro h
    cases hScan : Reference.scan text with
    | absent | unterminated => simp [expand, hScan] at h
    | found reference =>
      cases hValue : symbols.lookup? reference.name with
      | none => simp [expand, hScan, hValue] at h
      | some value =>
        have hFirst := Reference.scan_eq_found_iff.mp hScan
        rw [expand_of_isFirstOf hFirst hValue] at h
        exact ⟨reference, value, hFirst, hValue, (Expansion.expanded.inj h).symm⟩
  · rintro ⟨reference, value, hFirst, hValue, rfl⟩
    exact expand_of_isFirstOf hFirst hValue

theorem refersTo_iff {name : String} :
    RefersTo text name ↔ ∃ reference, Reference.IsFirstOf reference text ∧ reference.name = name := by
  constructor
  · rintro ⟨before, after, hOpens, hName⟩
    exact ⟨⟨before, name, after⟩, Reference.isFirstOf_iff.mpr ⟨hOpens, hName⟩, rfl⟩
  · rintro ⟨reference, hFirst, rfl⟩
    obtain ⟨hOpens, hName⟩ := Reference.isFirstOf_iff.mp hFirst
    exact ⟨_, _, hOpens, hName⟩

theorem expand_eq_undefined_iff {name : String} : expand text symbols = .undefined name ↔
    (∃ reference, Reference.IsFirstOf reference text ∧ reference.name = name) ∧ symbols.lookup? name = none := by
  rw [← refersTo_iff, expand_eq_undefined]

end expand

/-- Expansion replaces the first reference of a text, which is the only one that it looks at. -/
theorem expansion_replaces_first_reference (text : String) (symbols : SymbolTable) :
    (∀ first second : Reference, first.IsFirstOf text → second.IsFirstOf text → first = second) ∧
    ((∀ result, expand text symbols = .expanded result ↔
        ∃ reference value, Reference.IsFirstOf reference text ∧ symbols.lookup? reference.name = some value ∧
          result = reference.before ++ value ++ reference.after) ∧
      (∀ name, expand text symbols = .undefined name ↔
        (∃ reference, Reference.IsFirstOf reference text ∧ reference.name = name) ∧ symbols.lookup? name = none) ∧
      (expand text symbols = .malformed ↔ Unterminated text) ∧
      (expand text symbols = .noReference ↔ ¬['$', '{'] <:+: text.toList)) ∧
    (∀ reference, Reference.scan text = .found reference ↔ reference.IsFirstOf text) ∧
    ∀ reference : Reference, reference.IsFirstOf text →
      reference.start = reference.before.utf8ByteSize ∧
      reference.stop = reference.start + reference.name.utf8ByteSize + 3 ∧
      Boundary text reference.start ∧ Boundary text reference.stop ∧
      Span.Spells ⟨reference.start, reference.stop⟩ text ("$\x7b" ++ reference.name ++ "\x7d") ∧
      ∀ (after : String) (symbols : SymbolTable),
        (∀ value, symbols.lookup? reference.name = some value →
          expand (reference.before ++ ("$\x7b" ++ reference.name ++ "\x7d") ++ after) symbols =
            .expanded (reference.before ++ value ++ after)) ∧
        (symbols.lookup? reference.name = none →
          expand (reference.before ++ ("$\x7b" ++ reference.name ++ "\x7d") ++ after) symbols =
            .undefined reference.name) := by
  refine ⟨fun _ _ hFirst hSecond => hFirst.unique hSecond,
    ⟨fun _ => expand_eq_expanded, fun _ => expand_eq_undefined_iff, expand_eq_malformed, expand_eq_noReference⟩,
    fun _ => Reference.scan_eq_found_iff, fun reference h => ?_⟩
  refine ⟨rfl, rfl, h.spells.boundary_start, h.spells.boundary_stop, h.spells, fun after symbols => ?_⟩
  have hContinued := h.continued after
  constructor
  · intro value hValue
    exact expand_of_isFirstOf hContinued hValue
  · intro hNone
    exact expand_eq_undefined_iff.mpr ⟨⟨_, hContinued, rfl⟩, hNone⟩

/-- The `$` before a reference is no part of it, a `${` in a name is, and so is no `}` but the first. -/
theorem expansion_replaces_first_reference_of_nested :
    Reference.IsFirstOf ⟨"$", "A$\x7bB", "\x7d/é"⟩ "$$\x7bA$\x7bB\x7d\x7d/é" ∧
      Reference.scan "$$\x7bA$\x7bB\x7d\x7d/é" = .found ⟨"$", "A$\x7bB", "\x7d/é"⟩ ∧
      Boundary "$$\x7bA$\x7bB\x7d\x7d/é" (1 + 4 + 3) ∧
      expand "$$\x7bA$\x7bB\x7d\x7d/é" (.ofList [("B", "b"), ("A$\x7bB", "$\x7bC\x7d")]) =
        .expanded "$$\x7bC\x7d\x7d/é" := by
  have hFirst : Reference.IsFirstOf ⟨"$", "A$\x7bB", "\x7d/é"⟩ "$$\x7bA$\x7bB\x7d\x7d/é" :=
    ⟨by decide, by decide, by decide⟩
  obtain ⟨-, ⟨hExpanded, -⟩, hFound, hRest⟩ := expansion_replaces_first_reference "$$\x7bA$\x7bB\x7d\x7d/é"
    (.ofList [("B", "b"), ("A$\x7bB", "$\x7bC\x7d")])
  obtain ⟨-, -, -, hStop, -⟩ := hRest _ hFirst
  exact ⟨hFirst, (hFound _).mpr hFirst, hStop, (hExpanded _).mpr ⟨_, "$\x7bC\x7d", hFirst, by decide, by decide⟩⟩

end Listfile
