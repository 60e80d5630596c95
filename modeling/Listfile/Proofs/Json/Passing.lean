import Listfile.Proofs.Json.Lexemes
import Listfile.Proofs.Json.Takes
/-! # Values that are passed over

The grammar of JSON values, with blanks wherever they may stand. Any value of the grammar is passed over as a whole,
however deep it is and however much room for nesting there is.
-/
namespace Listfile.Json
set_option autoImplicit false

/-- The texts of names, after their opening quotes, and of values, with commas and colons between them and blanks
anywhere, up to a closing brace. -/
inductive Entries : Bool → List (List Char × List Char) → List Char → Prop
  | nil {first : Bool} {blanks : List Char} (hBlanks : Blank blanks) : Entries first [] blanks
  | cons {first : Bool} {before after beforeColon afterColon quoted text rest : List Char}
    {entries : List (List Char × List Char)} (hBefore : Blank before) (hAfter : Blank after)
    (hBeforeColon : Blank beforeColon) (hAfterColon : Blank afterColon) (hRest : Entries false entries rest) :
    Entries first ((quoted, text) :: entries)
      (before ++ (comma first ++ (after ++ '"' :: (quoted ++ (beforeColon ++ ':' :: (afterColon ++ (text ++ rest)))))))

/-- The texts of values. -/
inductive IsValue : List Char → Prop
  | null : IsValue ['n', 'u', 'l', 'l']
  | yes : IsValue ['t', 'r', 'u', 'e']
  | no : IsValue ['f', 'a', 'l', 's', 'e']
  | number {text : List Char} (h : Magnitude text) : IsValue text
  | negative {text : List Char} (h : Magnitude text) : IsValue ('-' :: text)
  | string {text : List Char} (h : StringBody text) : IsValue ('"' :: text)
  | array {texts : List (List Char)} {text : List Char} (hElements : Elements true texts text)
    (h : ∀ item ∈ texts, IsValue item) : IsValue ('[' :: (text ++ [']']))
  | object {entries : List (List Char × List Char)} {text : List Char} (hEntries : Entries true entries text)
    (hNames : ∀ entry ∈ entries, StringBody entry.1) (h : ∀ entry ∈ entries, IsValue entry.2) :
    IsValue ('{' :: (text ++ ['}']))

section entries

variable {first : Bool} {entries : List (List Char × List Char)} {text : List Char}

theorem Entries.delimited (h : Entries false entries text) (rest : List Char) : Delimited (text ++ '}' :: rest) := by
  cases h with
  | nil hBlanks => exact .blanks hBlanks (delimited_cons (by decide) _)
  | cons hBefore =>
    rw [List.append_assoc]
    exact .blanks hBefore (delimited_cons (by decide) _)

theorem Entries.length_le (h : Entries first entries text) : entries.length ≤ text.length := by
  induction h with
  | nil => exact Nat.zero_le _
  | cons =>
    simp only [List.length_append, List.length_cons]
    omega

theorem Entries.length_le_of_mem (h : Entries first entries text) {entry : List Char × List Char}
    (hEntry : entry ∈ entries) : entry.2.length ≤ text.length := by
  induction h with
  | nil => cases hEntry
  | @cons _ _ _ _ _ _ text =>
    rename_i ih
    simp only [List.length_append, List.length_cons]
    rcases List.mem_cons.mp hEntry with rfl | hEntry
    · show text.length ≤ _
      omega
    · have := ih hEntry
      omega

/-- A member whose name is read has a name in the grammar. -/
def Names (entry : List Char × List Char) (member : String × List Char) : Prop :=
  (∀ more, readString (entry.1 ++ more) = .ok (member.1.toList, more)) ∧ entry.2 = member.2

end entries

/-- What is read as a string whatever follows it is one. -/
theorem stringBody_of_reads {body cs : List Char} (h : ∀ more, readString (body ++ more) = .ok (cs, more)) :
    StringBody body := by
  obtain ⟨front, hFront, hBody⟩ := stringBody_of_readString (h [])
  rw [List.append_nil, List.append_nil] at hFront
  rwa [hFront]

theorem Members.exists_entries {first : Bool} {members : List (String × List Char)} {text : List Char}
    (h : Members first members text) (hValues : ∀ member ∈ members, IsValue member.2) :
    ∃ entries, Entries first entries text ∧ List.Forall₂ Names entries members ∧
      (∀ entry ∈ entries, StringBody entry.1) ∧ ∀ entry ∈ entries, IsValue entry.2 := by
  induction h with
  | nil hBlanks => exact ⟨[], .nil hBlanks, .nil, List.forall_mem_nil _, List.forall_mem_nil _⟩
  | @cons _ _ _ _ _ quoted text _ name _ hBefore hAfter hBeforeColon hAfterColon hName _ ih =>
    obtain ⟨hValue, hOthers⟩ := List.forall_mem_cons.mp hValues
    obtain ⟨entries, hEntries, hNames, hBodies, hEntryValues⟩ := ih hOthers
    have hSpelled : Names (quoted, text) (name, text) := ⟨hName, rfl⟩
    exact ⟨_, .cons hBefore hAfter hBeforeColon hAfterColon hEntries, .cons hSpelled hNames,
      List.forall_mem_cons.mpr ⟨stringBody_of_reads hName, hBodies⟩, List.forall_mem_cons.mpr ⟨hValue, hEntryValues⟩⟩

/-- The text of an object with the given members. -/
def IsObject (members : List (String × List Char)) (text : List Char) : Prop :=
  ∃ inner, text = '{' :: (inner ++ ['}']) ∧ Members true members inner

theorem IsObject.isValue {members : List (String × List Char)} {text : List Char} (h : IsObject members text)
    (hValues : ∀ member ∈ members, IsValue member.2) : IsValue text := by
  obtain ⟨inner, rfl, hMembers⟩ := h
  obtain ⟨entries, hEntries, -, hBodies, hEntryValues⟩ := hMembers.exists_entries hValues
  exact .object hEntries hBodies hEntryValues

theorem IsObject.length_lt {members : List (String × List Char)} {text : List Char} (h : IsObject members text)
    {member : String × List Char} (hMember : member ∈ members) : member.2.length < text.length := by
  obtain ⟨inner, rfl, hMembers⟩ := h
  have := hMembers.length_le_of_mem hMember
  rw [List.length_cons, List.length_append]
  omega

theorem Magnitude.head {text : List Char} (h : Magnitude text) : ∃ c rest, text = c :: rest ∧ isDigit c = true := by
  obtain @⟨whole, fraction, exponent, hWhole, -, -⟩ := h
  cases whole with
  | nil => exact absurd rfl hWhole.ne_nil
  | cons c whole => exact ⟨c, _, rfl, hWhole.isDigit c List.mem_cons_self⟩

theorem IsValue.announces {text : List Char} (h : IsValue text) : Announces text := by
  cases h with
  | number h =>
    obtain ⟨c, rest, rfl, hDigit⟩ := h.head
    exact ⟨c, rest, rfl, isBlank_of_isDigit hDigit, ne_of_isDigit hDigit (by decide)⟩
  | _ => exact ⟨_, _, rfl, by decide, by decide⟩

namespace Reader

section items

variable {room : Nat} {before after rest : List Char}

theorem skipHasElement_nil {first : Bool} (hBefore : Blank before) :
    skipHasElement first room (before ++ ']' :: rest) = .ok (false, ']' :: rest) := by
  refine (bind_ok (peek_ok hBefore (by decide))).trans ?_
  rfl

/-- The blanks after a comma are left to the element. -/
theorem skipHasElement_cons {first : Bool} (hBefore : Blank before) (hAfter : Blank after) {c : Char}
    (hBlank : isBlank c = false) (hClosing : c ≠ ']') : ∃ blanks, Blank blanks ∧
      skipHasElement first room (before ++ (comma first ++ (after ++ c :: rest))) = .ok (true, blanks ++ c :: rest) := by
  cases first with
  | true =>
    refine ⟨[], blank_nil, ?_⟩
    rw [comma, if_pos rfl, List.nil_append, ← List.append_assoc]
    refine (bind_ok (peek_ok (hBefore.append hAfter) hBlank)).trans ?_
    simp only [hClosing, if_false, if_true]
    rfl
  | false =>
    refine ⟨after, hAfter, ?_⟩
    rw [comma, if_neg (by decide), List.singleton_append]
    refine (bind_ok (peek_ok hBefore (by decide))).trans ?_
    rfl

theorem skipHasMember_nil {first : Bool} (hBefore : Blank before) :
    skipHasMember first room (before ++ '}' :: rest) = .ok (false, '}' :: rest) := by
  refine (bind_ok (peek_ok hBefore (by decide))).trans ?_
  rfl

theorem skipHasMember_cons {first : Bool} (hBefore : Blank before) (hAfter : Blank after) :
    skipHasMember first room (before ++ (comma first ++ (after ++ '"' :: rest))) = .ok (true, rest) := by
  cases first with
  | true =>
    rw [comma, if_pos rfl, List.nil_append, ← List.append_assoc]
    refine (bind_ok (peek_ok (hBefore.append hAfter) (by decide))).trans ?_
    rfl
  | false =>
    rw [comma, if_neg (by decide), List.singleton_append]
    refine (bind_ok (peek_ok hBefore (by decide))).trans ?_
    simp only [Char.reduceEq, Bool.false_eq_true, not_false_eq_true, ne_eq, not_true_eq_false, and_false, if_false,
      if_true]
    refine (bind_ok rfl).trans ?_
    exact (bind_ok (peek_ok hAfter (by decide))).trans rfl

end items

/-- Whether a text is passed over as a whole. -/
def Passes (reader : Reader Unit) (text : List Char) : Prop :=
  ∀ room blanks rest, Blank blanks → Delimited rest → reader room (blanks ++ (text ++ rest)) = .ok ((), rest)

section loops

variable {room : Nat} {text rest : List Char} {item : Reader Unit}

theorem skipElements_ok {first : Bool} {texts : List (List Char)} (h : Elements first texts text)
    (hItems : ∀ text ∈ texts, item.Passes text) (limit : List Char) (hLimit : texts.length < limit.length) :
    ∃ xs, manyWithin skipHasElement item limit first room (text ++ ']' :: rest) = .ok (xs, ']' :: rest) := by
  induction h generalizing limit with
  | nil hBlanks =>
    cases limit with
    | nil => cases hLimit
    | cons _ limit => exact ⟨[], (bind_ok (skipHasElement_nil hBlanks)).trans rfl⟩
  | @cons first before after text others texts hBefore hAfter hText hRest ih =>
    obtain ⟨hItem, hOthers⟩ := List.forall_mem_cons.mp hItems
    cases limit with
    | nil => cases hLimit
    | cons _ limit =>
      obtain ⟨xs, hMany⟩ := ih hOthers limit (by simpa using hLimit)
      obtain ⟨c, tail, rfl, hBlank, hClosing⟩ := hText
      obtain ⟨blanks, hBlanks, hMore⟩ :=
        @skipHasElement_cons room _ _ (tail ++ (others ++ ']' :: rest)) first hBefore hAfter _ hBlank hClosing
      -- The element is passed over with the blanks that were left to it.
      have hFirst := hItem room blanks (others ++ ']' :: rest) hBlanks (hRest.delimited rest)
      refine ⟨() :: xs, ?_⟩
      simp only [List.append_assoc, List.cons_append] at hMore hFirst ⊢
      refine (bind_ok hMore).trans ?_
      simp only [if_true]
      refine (bind_ok hFirst).trans ?_
      exact (bind_ok hMany).trans rfl

theorem ofText_skipString {body : List Char} (h : StringBody body) :
    ofText (fun text => (skipString text).map ((), ·)) room (body ++ rest) = .ok ((), rest) := by
  rw [ofText, skipString_ok h rest]
  rfl

theorem ofText_skipNumber (h : Magnitude text) (hRest : Delimited rest) :
    ofText (fun text => (skipNumber text).map ((), ·)) room (text ++ rest) = .ok ((), rest) := by
  rw [ofText, skipNumber_ok h hRest]
  rfl

theorem skipEntries_ok {first : Bool} {entries : List (List Char × List Char)} (h : Entries first entries text)
    (hNames : ∀ entry ∈ entries, StringBody entry.1) (hItems : ∀ entry ∈ entries, item.Passes entry.2)
    (limit : List Char) (hLimit : entries.length < limit.length) :
    ∃ xs, manyWithin skipHasMember (do ofText fun text => (skipString text).map ((), ·); colon; item) limit first room
      (text ++ '}' :: rest) = .ok (xs, '}' :: rest) := by
  induction h generalizing limit with
  | nil hBlanks =>
    cases limit with
    | nil => cases hLimit
    | cons _ limit => exact ⟨[], (bind_ok (skipHasMember_nil hBlanks)).trans rfl⟩
  | @cons first before after beforeColon afterColon quoted text others entries hBefore hAfter hBeforeColon hAfterColon
      hRest ih =>
    obtain ⟨hName, hOtherNames⟩ := List.forall_mem_cons.mp hNames
    obtain ⟨hItem, hOthers⟩ := List.forall_mem_cons.mp hItems
    cases limit with
    | nil => cases hLimit
    | cons _ limit =>
      obtain ⟨xs, hMany⟩ := ih hOtherNames hOthers limit (by simpa using hLimit)
      have hMember : (do ofText fun text => (skipString text).map ((), ·); colon; item) room
          (quoted ++ (beforeColon ++ ':' :: (afterColon ++ (text ++ (others ++ '}' :: rest))))) =
          .ok ((), others ++ '}' :: rest) := by
        refine (bind_ok (ofText_skipString hName)).trans ?_
        refine (bind_ok (colon_ok hBeforeColon)).trans ?_
        exact hItem room afterColon _ hAfterColon (hRest.delimited rest)
      refine ⟨() :: xs, ?_⟩
      simp only [List.append_assoc, List.cons_append]
      refine (bind_ok (skipHasMember_cons hBefore hAfter)).trans ?_
      simp only [if_true]
      refine (bind_ok hMember).trans ?_
      exact (bind_ok hMany).trans rfl

end loops

/-! ## All values -/

theorem passes_skipWithin (fuel : List Char) {text : List Char} (h : IsValue text)
    (hFuel : text.length < fuel.length) : (skipWithin fuel).Passes text := by
  induction fuel generalizing text with
  | nil => cases hFuel
  | cons _ fuel ih =>
    intro room blanks rest hBlanks hRest
    rw [skipWithin]
    cases h with
    | null =>
      refine (bind_ok (peek_ok hBlanks (by decide))).trans ?_
      exact (bind_ok rfl).trans (literal_ok ['u', 'l', 'l'])
    | yes =>
      refine (bind_ok (peek_ok hBlanks (by decide))).trans ?_
      exact (bind_ok rfl).trans (literal_ok ['r', 'u', 'e'])
    | no =>
      refine (bind_ok (peek_ok hBlanks (by decide))).trans ?_
      exact (bind_ok rfl).trans (literal_ok ['a', 'l', 's', 'e'])
    | number h =>
      have hSkip := @ofText_skipNumber room _ rest h hRest
      obtain ⟨c, tail, rfl, hDigit⟩ := h.head
      have hNe (other : Char) (hOther : isDigit other = false) : (c = other) = False :=
        eq_false (ne_of_isDigit hDigit hOther)
      refine (bind_ok (peek_ok hBlanks (isBlank_of_isDigit hDigit))).trans ?_
      simp only [hNe 'n' rfl, hNe 't' rfl, hNe 'f' rfl, hNe '-' rfl, hDigit, if_false, if_true]
      exact hSkip
    | negative h =>
      refine (bind_ok (peek_ok hBlanks (by decide))).trans ?_
      simp only [Char.reduceEq, if_false, if_true]
      exact (bind_ok rfl).trans (ofText_skipNumber h hRest)
    | string h =>
      refine (bind_ok (peek_ok hBlanks (by decide))).trans ?_
      simp only [Char.reduceEq, if_false, if_true, show isDigit '"' = false from rfl, Bool.false_eq_true]
      exact (bind_ok rfl).trans (ofText_skipString h)
    | @array texts text hElements hItems =>
      -- Each element is shorter than the array, and there are fewer of them than it has characters.
      have hLength := hElements.length_le
      simp only [List.length_cons, List.length_append, List.length_nil] at hFuel
      obtain ⟨xs, hMany⟩ := @skipElements_ok room _ rest _ _ _ hElements
        (fun item hItem => ih (hItems item hItem) (by have := hElements.length_le_of_mem hItem; omega))
        (' ' :: (text ++ ']' :: rest)) (by simp only [List.length_cons, List.length_append]; omega)
      simp only [List.cons_append, List.append_assoc, List.nil_append]
      refine (bind_ok (peek_ok hBlanks (by decide))).trans ?_
      simp only [Char.reduceEq, if_false, if_true, show isDigit '[' = false from rfl, Bool.false_eq_true]
      refine (bind_ok rfl).trans ?_
      exact (bind_ok ((bind_ok measure_ok).trans hMany)).trans rfl
    | @object entries text hEntries hNames hItems =>
      have hLength := hEntries.length_le
      simp only [List.length_cons, List.length_append, List.length_nil] at hFuel
      obtain ⟨xs, hMany⟩ := @skipEntries_ok room _ rest _ _ _ hEntries hNames
        (fun entry hEntry => ih (hItems entry hEntry) (by have := hEntries.length_le_of_mem hEntry; omega))
        (' ' :: (text ++ '}' :: rest)) (by simp only [List.length_cons, List.length_append]; omega)
      simp only [List.cons_append, List.append_assoc, List.nil_append]
      refine (bind_ok (peek_ok hBlanks (by decide))).trans ?_
      simp only [Char.reduceEq, if_false, if_true, show isDigit '{' = false from rfl, Bool.false_eq_true]
      refine (bind_ok rfl).trans ?_
      exact (bind_ok ((bind_ok measure_ok).trans hMany)).trans rfl

theorem passes_skip {text : List Char} (h : IsValue text) : skip.Passes text := by
  intro room blanks rest hBlanks hRest
  refine (bind_ok measure_ok).trans (passes_skipWithin _ h ?_ room blanks rest hBlanks hRest)
  simp only [List.length_cons, List.length_append]
  omega

end Reader

end Listfile.Json
