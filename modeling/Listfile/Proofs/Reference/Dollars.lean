import Listfile.Proofs.Reference.Expansion
import Listfile.Proofs.SymbolTable.Order
/-! # Expansion over and over

A text that is expanded may get longer, and may get a reference that neither it nor the value had: an empty value brings
the `$` before the old reference next to the `{` after it. What goes down is the number of `$`. A step takes away the one
of the reference and those of the name, and brings in those of the value; where values have none, this ends.
-/
namespace Listfile
set_option autoImplicit false

def dollars (text : String) : Nat := text.toList.count '$'

theorem dollars_append (text more : String) : dollars (text ++ more) = dollars text + dollars more := by
  rw [dollars, String.toList_append, List.count_append]
  rfl

theorem dollars_written (reference : Reference) : dollars reference.written = dollars reference.name + 1 := by
  have hOpening : dollars "$\x7b" = 1 := by decide
  have hClosing : dollars "\x7d" = 0 := by decide
  rw [Reference.written, dollars_append, dollars_append, hOpening, hClosing]
  omega

theorem dollars_eq_zero {text : String} : dollars text = 0 ↔ '$' ∉ text.toList := List.count_eq_zero

/-- What a step takes away and what it brings in. -/
theorem dollars_replaced {reference : Reference} {text : String} (h : reference.IsFirstOf text) (value : String) :
    dollars (reference.before ++ value ++ reference.after) + (dollars reference.name + 1) =
      dollars text + dollars value := by
  rw [h.text_eq]
  simp only [dollars_append, dollars_written]
  omega

/-! ## Values without `$` -/

namespace SymbolTable

def DollarFree (table : SymbolTable) : Prop := ∀ definition ∈ table.entries, '$' ∉ definition.2.toList

theorem DollarFree.of_lookup? {table : SymbolTable} (h : table.DollarFree) {name value : String}
    (hValue : table.lookup? name = some value) : '$' ∉ value.toList := h _ (mem_entries_iff.mpr hValue)

theorem DollarFree.define {table : SymbolTable} (h : table.DollarFree) (name : String) {value : String}
    (hValue : '$' ∉ value.toList) : (table.define name value).DollarFree := by
  rintro ⟨other, found⟩ hMem
  rw [mem_entries_iff, lookup?_define] at hMem
  split at hMem
  · cases hMem
    exact hValue
  · exact h.of_lookup? hMem

theorem DollarFree.defineAll {table : SymbolTable} (h : table.DollarFree) {definitions : List (String × String)}
    (hValues : ∀ definition ∈ definitions, '$' ∉ definition.2.toList) : (table.defineAll definitions).DollarFree := by
  induction definitions generalizing table with
  | nil => exact h
  | cons definition rest ih =>
    obtain ⟨hFirst, hRest⟩ := List.forall_mem_cons.mp hValues
    exact ih (h.define definition.1 hFirst) hRest

end SymbolTable

section DollarFree

variable {symbols : SymbolTable}

theorem dollars_lt_of_expand (h : symbols.DollarFree) {text result : String}
    (hExpand : expand text symbols = .expanded result) : dollars result < dollars text := by
  obtain ⟨reference, value, hFirst, hValue, rfl⟩ := expand_eq_expanded.mp hExpand
  have hDollars := dollars_replaced hFirst value
  rw [dollars_eq_zero.mpr (h.of_lookup? hValue)] at hDollars
  omega

/-- Expansion of a text over and over, with what it has come to after a number of steps. -/
inductive Expands (symbols : SymbolTable) : String → Nat → String → Prop
  | start (text : String) : Expands symbols text 0 text
  | step {text next last : String} {steps : Nat} : expand text symbols = .expanded next →
      Expands symbols next steps last → Expands symbols text (steps + 1) last

/-- Whether a text cannot be expanded: it has no reference, or the first one is never closed or of no name that has a
value. -/
def Final (symbols : SymbolTable) (text : String) : Prop :=
  expand text symbols = .noReference ∨ expand text symbols = .malformed ∨
    ∃ name, expand text symbols = .undefined name

theorem expanded_or_final (symbols : SymbolTable) (text : String) :
    (∃ next, expand text symbols = .expanded next) ∨ Final symbols text := by
  cases hExpand : expand text symbols with
  | expanded next => exact .inl ⟨next, rfl⟩
  | noReference => exact .inr (.inl hExpand)
  | malformed => exact .inr (.inr (.inl hExpand))
  | undefined name => exact .inr (.inr (.inr ⟨name, hExpand⟩))

/-- Each step takes away at least one `$`. -/
theorem Expands.add_le (h : symbols.DollarFree) {text last : String} {steps : Nat}
    (hExpands : Expands symbols text steps last) : steps + dollars last ≤ dollars text := by
  induction hExpands with
  | start => exact (Nat.zero_add _).le
  | step hExpand _ ih =>
    have hLt := dollars_lt_of_expand h hExpand
    omega

theorem exists_expands_final (h : symbols.DollarFree) (text : String) :
    ∃ steps last, Expands symbols text steps last ∧ Final symbols last := by
  induction hDollars : dollars text using Nat.strongRecOn generalizing text with
  | ind count ih =>
    rcases expanded_or_final symbols text with ⟨next, hExpand⟩ | hFinal
    · have hLt := dollars_lt_of_expand h hExpand
      obtain ⟨steps, last, hExpands, hFinal⟩ := ih _ (hDollars ▸ hLt) next rfl
      exact ⟨steps + 1, last, .step hExpand hExpands, hFinal⟩
    · exact ⟨0, text, .start text, hFinal⟩

end DollarFree

end Listfile
