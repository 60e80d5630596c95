import Listfile.Reference
/-! # The first reference of a text

A text has no `${`, or it splits at the first one. After that one there is no `}`, or the text splits at the first of
these as well, and what is between the two is the name that is referred to.
-/
namespace Listfile
set_option autoImplicit false

/-- Whether a text falls into what is before the first `${` and what is after it. -/
def OpensAt (text before after : String) : Prop :=
  text = before ++ "$\x7b" ++ after ∧ ¬['$', '{'] <:+: before.toList

/-- Whether there is a `${` in a text, and no `}` after the first one. -/
def Unterminated (text : String) : Prop := ∃ before after, OpensAt text before after ∧ '}' ∉ after.toList

/-- Whether a name is between the first `${` of a text and the first `}` after that. -/
def RefersTo (text name : String) : Prop :=
  ∃ before after, OpensAt text before (name ++ "\x7d" ++ after) ∧ '}' ∉ name.toList

theorem splitAtOpening?_cons {c : Char} {cs : List Char} (h : ¬['$', '{'] <+: c :: cs) :
    splitAtOpening? (c :: cs) = (splitAtOpening? cs).map fun (before, after) => (c :: before, after) := by
  rw [splitAtOpening?]
  rintro rest rfl rfl
  exact h ⟨rest, rfl⟩

theorem splitAtOpening?_eq_none {cs : List Char} : splitAtOpening? cs = none ↔ ¬['$', '{'] <:+: cs := by
  fun_induction splitAtOpening? cs with
  | case1 => simp
  | case2 rest => simpa using ⟨[], rest, rfl⟩
  | case3 c cs hOther ih =>
    have hPrefix : ¬['$', '{'] <+: c :: cs := by
      rintro ⟨rest, hRest⟩
      cases hRest
      exact hOther rest rfl rfl
    rw [Option.map_eq_none_iff, ih, List.infix_cons_iff]
    simp [hPrefix]

theorem splitAtOpening?_eq_some {cs before after : List Char} :
    splitAtOpening? cs = some (before, after) ↔ cs = before ++ '$' :: '{' :: after ∧ ¬['$', '{'] <:+: before := by
  constructor
  · intro h
    fun_induction splitAtOpening? cs generalizing before with
    | case1 => cases h
    | case2 rest =>
      cases h
      exact ⟨rfl, by simp⟩
    | case3 c cs hOther ih =>
      obtain ⟨⟨inner, _⟩, hInner, hEq⟩ := Option.map_eq_some_iff.mp h
      cases hEq
      obtain ⟨rfl, hNone⟩ := ih hInner
      refine ⟨rfl, ?_⟩
      rw [List.infix_cons_iff]
      rintro (⟨rest, hRest⟩ | hInfix)
      · cases hRest
        exact hOther _ rfl rfl
      · exact hNone hInfix
  · rintro ⟨rfl, hNone⟩
    induction before with
    | nil => rfl
    | cons c before ih =>
      rw [List.infix_cons_iff, not_or] at hNone
      rw [List.cons_append, splitAtOpening?_cons, ih hNone.2]
      · rfl
      · -- The first character and the one after it are both before the opening, or the second one is its `$`.
        rintro ⟨rest, hRest⟩
        cases before with
        | nil => cases hRest
        | cons d before =>
          cases hRest
          exact hNone.1 ⟨before, rfl⟩

theorem opensAt_iff {text before after : String} :
    OpensAt text before after ↔ splitAtOpening? text.toList = some (before.toList, after.toList) := by
  rw [splitAtOpening?_eq_some, OpensAt, ← String.toList_inj, String.toList_append, String.toList_append,
    List.append_assoc]
  rfl

theorem exists_opensAt {text : String} {before after : List Char}
    (h : splitAtOpening? text.toList = some (before, after)) :
    OpensAt text (String.ofList before) (String.ofList after) := by
  rwa [opensAt_iff, String.toList_ofList, String.toList_ofList]

namespace Reference

theorem scan_of_unterminated {text before after : String} (h : OpensAt text before after) (hNone : '}' ∉ after.toList) :
    scan text = .unterminated := by
  have hAll : ∀ c ∈ after.toList, decide (c ≠ '}') = true := fun c hMem =>
    decide_eq_true (ne_of_mem_of_not_mem hMem hNone)
  have hNil : after.toList.dropWhile (· ≠ '}') = [] := by
    rw [← List.append_nil after.toList, List.dropWhile_append_of_pos hAll, List.dropWhile_nil]
  simp only [scan, opensAt_iff.mp h, hNil]

theorem scan_of_terminated {text before name after : String} (h : OpensAt text before (name ++ "\x7d" ++ after))
    (hNone : '}' ∉ name.toList) : scan text = .found ⟨before, name, after⟩ := by
  have hName : ∀ c ∈ name.toList, decide (c ≠ '}') = true := fun c hMem =>
    decide_eq_true (ne_of_mem_of_not_mem hMem hNone)
  have hChars : (name ++ "\x7d" ++ after).toList = name.toList ++ '}' :: after.toList := by
    rw [String.toList_append, String.toList_append, List.append_assoc]
    rfl
  have hTake : (name ++ "\x7d" ++ after).toList.takeWhile (· ≠ '}') = name.toList := by
    rw [hChars, List.takeWhile_append_of_pos hName, List.takeWhile_cons_of_neg (by simp), List.append_nil]
  have hDrop : (name ++ "\x7d" ++ after).toList.dropWhile (· ≠ '}') = '}' :: after.toList := by
    rw [hChars, List.dropWhile_append_of_pos hName, List.dropWhile_cons_of_neg (by simp)]
  simp only [scan, opensAt_iff.mp h, hDrop, hTake, String.ofList_toList]

/-- After the first `${` there is no `}`, or the text splits at the first one there. -/
theorem scan_cases (text : String) :
    scan text = .absent ∨ (Unterminated text ∧ scan text = .unterminated) ∨
      ∃ before name after, OpensAt text before (name ++ "\x7d" ++ after) ∧ '}' ∉ name.toList ∧
        scan text = .found ⟨before, name, after⟩ := by
  cases hSplit : splitAtOpening? text.toList with
  | none =>
    left
    simp only [scan, hSplit]
  | some parts =>
    right
    obtain ⟨before, rest⟩ := parts
    have hOpens := exists_opensAt hSplit
    by_cases hMem : '}' ∈ rest
    · right
      obtain ⟨name, after, rfl, hNone⟩ := List.eq_append_cons_of_mem hMem
      have hRest : String.ofList (name ++ '}' :: after) = String.ofList name ++ "\x7d" ++ String.ofList after := by
        rw [List.append_cons, String.ofList_append, String.ofList_append]
      rw [hRest] at hOpens
      have hName : '}' ∉ (String.ofList name).toList := by rwa [String.toList_ofList]
      exact ⟨_, _, _, hOpens, hName, scan_of_terminated hOpens hName⟩
    · left
      have hRest : '}' ∉ (String.ofList rest).toList := by rwa [String.toList_ofList]
      exact ⟨⟨_, _, hOpens, hRest⟩, scan_of_unterminated hOpens hRest⟩

theorem scan_eq_unterminated {text : String} : scan text = .unterminated ↔ Unterminated text := by
  constructor
  · intro h
    rcases scan_cases text with hScan | ⟨hUnterminated, -⟩ | ⟨_, _, _, -, -, hScan⟩
    · rw [hScan] at h
      cases h
    · exact hUnterminated
    · rw [hScan] at h
      cases h
  · rintro ⟨before, after, hOpens, hNone⟩
    exact scan_of_unterminated hOpens hNone

theorem scan_eq_found {text name : String} :
    (∃ before after, scan text = .found ⟨before, name, after⟩) ↔ RefersTo text name := by
  constructor
  · rintro ⟨before, after, h⟩
    rcases scan_cases text with hScan | ⟨-, hScan⟩ | ⟨_, _, _, hOpens, hNone, hScan⟩
    · rw [hScan] at h
      cases h
    · rw [hScan] at h
      cases h
    · cases hScan.symm.trans h
      exact ⟨_, _, hOpens, hNone⟩
  · rintro ⟨before, after, hOpens, hNone⟩
    exact ⟨before, after, scan_of_terminated hOpens hNone⟩

end Reference

theorem expand_eq_malformed {text : String} {symbols : SymbolTable} :
    expand text symbols = .malformed ↔ Unterminated text := by
  rw [← Reference.scan_eq_unterminated, expand]
  cases Reference.scan text with
  | absent => simp
  | unterminated => simp
  | found reference =>
    simp only
    split <;> simp

theorem expand_eq_undefined {text name : String} {symbols : SymbolTable} :
    expand text symbols = .undefined name ↔ RefersTo text name ∧ symbols.lookup? name = none := by
  rw [← Reference.scan_eq_found, expand]
  cases Reference.scan text with
  | absent => simp
  | unterminated => simp
  | found reference =>
    obtain ⟨before, other, after⟩ := reference
    simp only [Reference.Scan.found.injEq, Reference.mk.injEq, exists_and_left, exists_eq', and_true, exists_eq_left']
    cases hLookup : symbols.lookup? other with
    | none =>
      simp only [Expansion.undefined.injEq]
      constructor
      · rintro rfl
        exact ⟨rfl, hLookup⟩
      · exact And.left
    | some value =>
      simp only [reduceCtorEq, false_iff]
      rintro ⟨rfl, hNone⟩
      rw [hLookup] at hNone
      cases hNone

end Listfile
