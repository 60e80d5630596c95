import Listfile.Proofs.Json.Passing
import Listfile.Proofs.Json.Gives
/-! # Readers that take whole values

A reader is exact if it takes a value as a whole whenever it gives a result for it. The readers of single values are
exact, lists of what is read exactly are read exactly, and so are records with such members.
-/
namespace Listfile.Json
set_option autoImplicit false

variable {α β σ : Type}

/-! ## Values by their first character -/

section values

variable {text : List Char}

theorem not_magnitude_cons {c : Char} (h : isDigit c = false) : ¬Magnitude (c :: text) := by
  intro hText
  obtain ⟨_, _, hEq, hDigit⟩ := hText.head
  cases hEq
  rw [h] at hDigit
  cases hDigit

theorem IsValue.of_quote (h : IsValue ('"' :: text)) : StringBody text := by
  cases h with
  | number h => exact absurd h (not_magnitude_cons rfl)
  | string h => exact h

theorem IsValue.of_null (h : IsValue ('n' :: text)) : text = ['u', 'l', 'l'] := by
  cases h with
  | number h => exact absurd h (not_magnitude_cons rfl)
  | null => rfl

theorem IsValue.of_minus (h : IsValue ('-' :: text)) : Magnitude text := by
  cases h with
  | number h => exact absurd h (not_magnitude_cons rfl)
  | negative h => exact h

theorem IsValue.of_digit {c : Char} (hDigit : isDigit c = true) (h : IsValue (c :: text)) : Magnitude (c :: text) := by
  cases h with
  | number h => exact h
  | null | yes | no | negative | string | array | object => cases hDigit

theorem IsValue.of_bracket (h : IsValue ('[' :: text)) : ∃ texts inner, text = inner ++ [']'] ∧
    Elements true texts inner ∧ ∀ item ∈ texts, IsValue item := by
  cases h with
  | number h => exact absurd h (not_magnitude_cons rfl)
  | array hElements h => exact ⟨_, _, rfl, hElements, h⟩

theorem IsValue.of_brace (h : IsValue ('{' :: text)) : ∃ entries inner, text = inner ++ ['}'] ∧
    Entries true entries inner ∧ (∀ entry ∈ entries, StringBody entry.1) ∧ ∀ entry ∈ entries, IsValue entry.2 := by
  cases h with
  | number h => exact absurd h (not_magnitude_cons rfl)
  | object hEntries hNames h => exact ⟨_, _, rfl, hEntries, hNames, h⟩

end values

namespace Reader

/-- What a reader gives for a text, and what it leaves of it. -/
def Reads (reader : Reader α) (room : Nat) (text : List Char) (x : α) (rest : List Char) : Prop :=
  reader room text = .ok (x, rest)

section steps

variable {part : Reader α} {next : α → Reader β} {x : α} {y : β} {room : Nat} {text rest blanks : List Char}

theorem reads_bind (h : (part >>= next).Reads room text y rest) :
    ∃ x text', part.Reads room text x text' ∧ (next x).Reads room text' y rest := by
  unfold Reads at h
  cases hPart : part room text with
  | error error =>
    simp only [bind, ReaderT.bind, StateT.bind, hPart, Except.bind] at h
    cases h
  | ok result =>
    obtain ⟨x, text'⟩ := result
    rw [bind_ok hPart] at h
    exact ⟨x, text', hPart, h⟩

theorem Reads.gives (h : part.Reads room text x rest) : part.Gives x := ⟨room, text, rest, h⟩

theorem reads_pure {other : α} (h : Reads (pure x) room text other rest) : x = other ∧ text = rest := by
  cases h
  exact ⟨rfl, rfl⟩

theorem reads_take {u : Unit} (h : take.Reads room text u rest) : text.tail = rest := by
  cases h
  rfl

theorem reads_peek {c : Char} {next : Option Char} (hBlanks : Blank blanks) (h : isBlank c = false)
    (hRead : peek.Reads room (blanks ++ c :: text) next rest) : next = some c ∧ rest = c :: text := by
  unfold Reads at hRead
  rw [peek_ok hBlanks h] at hRead
  cases hRead
  exact ⟨rfl, rfl⟩

theorem reads_after_take {next : Unit → Reader β} {c : Char} (h : (take >>= next).Reads room (c :: text) y rest) :
    (next ()).Reads room text y rest := by
  obtain ⟨_, text', hTake, hNext⟩ := reads_bind h
  obtain rfl := reads_take hTake
  exact hNext

theorem reads_after_peek {next : Option Char → Reader β} {c : Char} (hBlanks : Blank blanks)
    (hBlank : isBlank c = false) (h : (peek >>= next).Reads room (blanks ++ c :: text) y rest) :
    (next (some c)).Reads room (c :: text) y rest := by
  obtain ⟨_, _, hPeek, hNext⟩ := reads_bind h
  obtain ⟨rfl, rfl⟩ := reads_peek hBlanks hBlank hPeek
  exact hNext

theorem not_reads_mismatch {expected : String} : ¬(mismatch expected : Reader α).Reads room text x rest :=
  fun h => not_gives_mismatch h.gives

theorem not_reads_throw {error : ReadError} : ¬Reads (throw error) room text x rest := fun h => not_gives_throw h.gives

theorem reads_ofExcept {result : Except ReadError α} (h : Reads (ofExcept result) room text x rest) :
    result = .ok x ∧ text = rest := by
  cases result with
  | error error => exact absurd h not_reads_throw
  | ok y =>
    obtain ⟨rfl, rfl⟩ := reads_pure h
    exact ⟨rfl, rfl⟩

end steps

/-- Whether a reader takes a value as a whole, if it gives a result for it at all. -/
def Exact (reader : Reader α) : Prop :=
  ∀ ⦃text room blanks rest x rest'⦄, IsValue text → Blank blanks → Delimited rest →
    reader.Reads room (blanks ++ (text ++ rest)) x rest' → rest = rest'

/-- Whether a reader gives a result for a text somewhere. -/
def Accepts (reader : Reader α) (text : List Char) : Prop :=
  ∃ room blanks rest x rest', Blank blanks ∧ Delimited rest ∧ reader.Reads room (blanks ++ (text ++ rest)) x rest'

theorem Exact.bind {part : Reader α} {next : α → Reader β} (h : part.Exact)
    (hNext : ∀ {x room text y rest}, (next x).Reads room text y rest → text = rest) : (part >>= next).Exact := by
  intro text room blanks rest y rest' hText hBlanks hRest hRead
  obtain ⟨x, text', hPart, hNext'⟩ := reads_bind hRead
  rw [← hNext hNext']
  exact h hText hBlanks hRest hPart

theorem exact_skip : skip.Exact := by
  intro text room blanks rest x rest' hText hBlanks hRest hRead
  unfold Reads at hRead
  rw [passes_skip hText room blanks rest hBlanks hRest] at hRead
  cases hRead
  rfl

/-! ## Single values -/

section single

variable {room : Nat} {text body rest rest' : List Char}

theorem reads_map {part : Reader α} {f : α → β} {y : β} (h : (f <$> part).Reads room text y rest) :
    ∃ x, part.Reads room text x rest ∧ f x = y := by
  rw [← bind_pure_comp] at h
  obtain ⟨x, text', hPart, hPure⟩ := reads_bind h
  obtain ⟨rfl, rfl⟩ := reads_pure hPure
  exact ⟨x, hPart, rfl⟩

theorem reads_stringBody {name : String} (hBody : StringBody body)
    (h : stringBody.Reads room (body ++ rest) name rest') :
    rest = rest' ∧ readString (body ++ rest) = .ok (name.toList, rest) := by
  obtain ⟨cs, hRead, rfl⟩ := reads_map h
  have hString : readString (body ++ rest) = .ok (cs, rest') := hRead
  obtain rfl := (rest_of_readString hBody hString).symm
  exact ⟨rfl, by rw [hString, String.toList_ofList]⟩

theorem reads_number {negative : Bool} {number : Number} (hText : Magnitude text) (hRest : Delimited rest)
    (h : (ofText (readNumber negative)).Reads room (text ++ rest) number rest') : rest = rest' :=
  (rest_of_readNumber hText hRest h).symm

theorem reads_literal {cs : List Char} {u : Unit} (h : (literal cs).Reads room (cs ++ rest) u rest') :
    rest = rest' := by
  unfold Reads at h
  rw [literal_ok] at h
  cases h
  rfl

theorem reads_colon {blanks : List Char} {u : Unit} (hBlanks : Blank blanks)
    (h : colon.Reads room (blanks ++ ':' :: rest) u rest') : rest = rest' := by
  unfold Reads at h
  rw [colon_ok hBlanks] at h
  cases h
  rfl

theorem exact_string : string.Exact := by
  intro text room blanks rest x rest' hText hBlanks hRest hRead
  obtain ⟨c, tail, rfl, hBlank, -⟩ := hText.announces
  replace hRead := reads_after_peek hBlanks hBlank hRead
  split at hRead
  · rename_i hQuote
    cases hQuote
    replace hRead := reads_after_take hRead
    exact (reads_stringBody hText.of_quote hRead).1
  · exact absurd hRead not_reads_mismatch

theorem exact_natural : natural.Exact := by
  intro text room blanks rest x rest' hText hBlanks hRest hRead
  obtain ⟨c, tail, rfl, hBlank, -⟩ := hText.announces
  unfold natural at hRead
  replace hRead := reads_after_peek hBlanks hBlank hRead
  extract_lets finish at hRead
  have hFinish {number : Number} {text rest : List Char} (h : (finish number).Reads room text x rest) :
      text = rest := by
    simp only [finish] at h
    split at h
    · exact (reads_pure h).2
    · exact absurd h not_reads_throw
    · exact absurd h not_reads_throw
  split at hRead
  · rename_i hNone
    cases hNone
  · rename_i hSome
    cases hSome
    split at hRead
    · rename_i hMinus
      subst hMinus
      replace hRead := reads_after_take hRead
      obtain ⟨number, text', hNumber, hRead⟩ := reads_bind hRead
      rw [← hFinish hRead]
      exact reads_number hText.of_minus hRest hNumber
    · split at hRead
      · rename_i hDigit
        obtain ⟨number, text', hNumber, hRead⟩ := reads_bind hRead
        rw [← hFinish hRead]
        exact reads_number (hText.of_digit hDigit) hRest hNumber
      · obtain ⟨_, _, h, -⟩ := reads_bind hRead
        exact absurd h not_reads_mismatch

end single

/-! ## Lists -/

section lists

variable {item : Reader α} {room : Nat} {text rest rest' : List Char}

theorem Exact.reads_manyWithin (hExact : item.Exact) {first : Bool} {texts : List (List Char)} {limit : List Char}
    {xs : List α} (h : Elements first texts text) (hTexts : ∀ text ∈ texts, IsValue text)
    (hRead : (manyWithin hasElement item limit first).Reads room (text ++ ']' :: rest) xs rest') :
    ']' :: rest = rest' ∧ ∀ text ∈ texts, item.Accepts text := by
  induction h generalizing limit xs with
  | @nil first blanks hBlanks =>
    cases limit with
    | nil => exact absurd hRead not_reads_throw
    | cons _ limit =>
      rw [manyWithin] at hRead
      unfold Reads at hRead
      rw [bind_ok (hasElement_nil hBlanks)] at hRead
      cases hRead
      exact ⟨rfl, List.forall_mem_nil _⟩
  | @cons first before after text others texts hBefore hAfter hText hRest ih =>
    obtain ⟨hValue, hOthers⟩ := List.forall_mem_cons.mp hTexts
    cases limit with
    | nil => exact absurd hRead not_reads_throw
    | cons _ limit =>
      obtain ⟨c, tail, rfl, hBlank, hClosing⟩ := hText
      simp only [List.append_assoc, List.cons_append] at hRead
      rw [manyWithin] at hRead
      unfold Reads at hRead
      rw [bind_ok (hasElement_cons hBefore hAfter hBlank hClosing)] at hRead
      obtain ⟨x, text', hItem, hRead⟩ := reads_bind hRead
      have hItem : item.Reads room ([] ++ (c :: tail ++ (others ++ ']' :: rest))) x text' := hItem
      obtain rfl := hExact hValue blank_nil (hRest.delimited rest) hItem
      obtain ⟨xs, text', hMany, hRead⟩ := reads_bind hRead
      obtain ⟨rfl, rfl⟩ := reads_pure hRead
      obtain ⟨rfl, hAccepts⟩ := ih hOthers hMany
      exact ⟨rfl, List.forall_mem_cons.mpr ⟨⟨_, [], _, _, _, blank_nil, hRest.delimited rest, hItem⟩, hAccepts⟩⟩

theorem reads_nested {body : Reader α} {x : α} (h : (nested body).Reads room text x rest) :
    ∃ room, body.Reads room text x rest := by
  cases room with
  | zero => cases h
  | succ room => exact ⟨room, h⟩

theorem reads_endList {u : Unit} (h : endList.Reads room (']' :: rest) u rest') : rest = rest' := by
  unfold Reads at h
  rw [← List.nil_append (']' :: rest), endList_ok blank_nil] at h
  cases h
  rfl

theorem reads_endObject {u : Unit} (h : endObject.Reads room ('}' :: rest) u rest') : rest = rest' := by
  unfold Reads at h
  rw [← List.nil_append ('}' :: rest), endObject_ok blank_nil] at h
  cases h
  rfl

theorem Exact.reads_array (hExact : item.Exact) {texts : List (List Char)} {xs : List α} (h : Elements true texts text)
    (hTexts : ∀ text ∈ texts, IsValue text)
    (hRead : (nested (do take; many hasElement item)).Reads room ('[' :: (text ++ ']' :: rest)) xs rest') :
    ']' :: rest = rest' ∧ ∀ text ∈ texts, item.Accepts text := by
  obtain ⟨room, hRead⟩ := reads_nested hRead
  replace hRead := reads_after_take hRead
  obtain ⟨_, _, hMeasure, hRead⟩ := reads_bind hRead
  cases hMeasure
  exact hExact.reads_manyWithin h hTexts hRead

theorem Exact.reads_list (hExact : item.Exact) {texts : List (List Char)} {blanks : List Char} {xs : List α}
    (h : Elements true texts text) (hTexts : ∀ text ∈ texts, IsValue text) (hBlanks : Blank blanks)
    (hRead : (list item).Reads room (blanks ++ ('[' :: (text ++ [']']) ++ rest)) xs rest') :
    rest = rest' ∧ ∀ text ∈ texts, item.Accepts text := by
  simp only [List.cons_append, List.append_assoc, List.nil_append] at hRead
  replace hRead := reads_after_peek hBlanks (by decide) hRead
  obtain ⟨items, text', hItems, hRead⟩ := reads_bind hRead
  obtain ⟨_, text'', hEnd, hRead⟩ := reads_bind hRead
  obtain ⟨-, rfl⟩ := reads_pure hRead
  obtain ⟨rfl, hAccepts⟩ := hExact.reads_array h hTexts hItems
  exact ⟨reads_endList hEnd, hAccepts⟩

theorem Exact.list (hExact : item.Exact) : (list item).Exact := by
  intro text room blanks rest x rest' hText hBlanks hRest hRead
  obtain ⟨c, tail, rfl, hBlank, -⟩ := hText.announces
  by_cases hBracket : c = '['
  · subst hBracket
    obtain ⟨texts, inner, rfl, hElements, hTexts⟩ := hText.of_bracket
    exact (hExact.reads_list hElements hTexts hBlanks hRead).1
  · replace hRead := reads_after_peek hBlanks hBlank hRead
    split at hRead
    · rename_i hSome
      cases hSome
      exact absurd rfl hBracket
    · exact absurd hRead not_reads_mismatch

theorem Exact.optional {value : Reader α} (hExact : value.Exact) : (optional value).Exact := by
  intro text room blanks rest x rest' hText hBlanks hRest hRead
  obtain ⟨c, tail, rfl, hBlank, -⟩ := hText.announces
  replace hRead := reads_after_peek hBlanks hBlank hRead
  split at hRead
  · rename_i hNull
    cases hNull
    obtain rfl := hText.of_null
    replace hRead := reads_after_take hRead
    obtain ⟨_, _, hLiteral, hRead⟩ := reads_bind hRead
    obtain ⟨-, rfl⟩ := reads_pure hRead
    exact reads_literal hLiteral
  · obtain ⟨x, hRead, -⟩ := reads_map hRead
    exact hExact hText blank_nil hRest hRead

end lists

/-! ## Variants -/

section variants

variable {variants : List (String × α)}

theorem exact_variantName : (variantName variants).Exact := by
  intro text room blanks rest x rest' hText hBlanks hRest hRead
  obtain ⟨c, tail, rfl, hBlank, -⟩ := hText.announces
  replace hRead := reads_after_peek hBlanks hBlank hRead
  split at hRead
  · rename_i hQuote
    cases hQuote
    replace hRead := reads_after_take hRead
    obtain ⟨name, _, hName, hRead⟩ := reads_bind hRead
    obtain ⟨rfl, -⟩ := reads_stringBody hText.of_quote hName
    split at hRead
    · exact (reads_pure hRead).2
    · exact absurd hRead not_reads_throw
  · exact absurd hRead not_reads_mismatch

/-- After the one member of the object, which is `null`, there is only its closing brace. -/
theorem reads_variant_object {entries : List (List Char × List Char)} {room : Nat} {inner blanks rest rest' : List Char}
    {x : α} (hEntries : Entries true entries inner) (hNames : ∀ entry ∈ entries, StringBody entry.1)
    (hValues : ∀ entry ∈ entries, IsValue entry.2) (hBlanks : Blank blanks)
    (hRead : (variant variants).Reads room (blanks ++ ('{' :: (inner ++ ['}']) ++ rest)) x rest') : rest = rest' := by
  simp only [List.cons_append, List.append_assoc, List.nil_append] at hRead
  replace hRead := reads_after_peek hBlanks (by decide) hRead
  obtain ⟨chosen, _, hChosen, hRead⟩ := reads_bind hRead
  obtain ⟨room, hChosen⟩ := reads_nested hChosen
  replace hChosen := reads_after_take hChosen
  cases hEntries with
  | nil hInner => exact absurd (reads_after_peek hInner (by decide) hChosen) not_reads_throw
  | @cons _ _ _ beforeColon _ _ _ _ _ hBefore hAfter hBeforeColon hAfterColon hRest =>
    have hBody : StringBody _ := hNames _ List.mem_cons_self
    have hValue : IsValue _ := hValues _ List.mem_cons_self
    simp only [comma, List.nil_append, List.cons_append, List.append_assoc, if_true] at hChosen
    rw [← List.append_assoc] at hChosen
    replace hChosen := reads_after_peek (hBefore.append hAfter) (by decide) hChosen
    obtain ⟨name, _, hName, hChosen⟩ := reads_bind hChosen
    have hColon (more : List Char) : Delimited (beforeColon ++ ':' :: more) :=
      .blanks hBeforeColon (delimited_cons (by decide) more)
    obtain rfl := exact_variantName (.string hBody) blank_nil (hColon _) hName
    obtain ⟨_, _, hTake, hChosen⟩ := reads_bind hChosen
    obtain rfl := reads_colon hBeforeColon hTake
    obtain ⟨c, tail, rfl, hBlank, -⟩ := hValue.announces
    replace hChosen := reads_after_peek hAfterColon hBlank hChosen
    split at hChosen
    · rename_i hNull
      cases hNull
      obtain rfl := hValue.of_null
      replace hChosen := reads_after_take hChosen
      obtain ⟨_, _, hLiteral, hChosen⟩ := reads_bind hChosen
      obtain ⟨rfl, rfl⟩ := reads_pure hChosen
      obtain rfl := reads_literal hLiteral
      -- A second member begins with a comma, and is refused.
      cases hRest with
      | nil hInner =>
        replace hRead := reads_after_take (reads_after_peek hInner (by decide) hRead)
        exact (reads_pure hRead).2
      | cons hBefore =>
        simp only [comma, List.cons_append, List.append_assoc, Bool.false_eq_true, if_false] at hRead
        exact absurd (reads_after_peek hBefore (by decide) hRead) not_reads_throw
    · obtain ⟨_, _, h, -⟩ := reads_bind hChosen
      exact absurd h not_reads_mismatch

theorem exact_variant : (variant variants).Exact := by
  intro text room blanks rest x rest' hText hBlanks hRest hRead
  obtain ⟨c, tail, rfl, hBlank, -⟩ := hText.announces
  by_cases hBrace : c = '{'
  · subst hBrace
    obtain ⟨entries, inner, rfl, hEntries, hNames, hValues⟩ := hText.of_brace
    exact reads_variant_object hEntries hNames hValues hBlanks hRead
  · replace hRead := reads_after_peek hBlanks hBlank hRead
    simp only [hBrace, if_false] at hRead
    split at hRead
    · exact exact_variantName hText blank_nil hRest hRead
    · exact absurd hRead not_reads_throw

end variants

/-! ## Members -/

/-- Whether a step takes the colon and the value of a member as a whole, if it gives a result for them at all. -/
def StepExact (step : σ → String → Reader σ) : Prop :=
  ∀ ⦃state name text room before after rest state' rest'⦄, IsValue text → Blank before → Blank after → Delimited rest →
    (step state name).Reads room (before ++ ':' :: (after ++ (text ++ rest))) state' rest' → rest = rest'

/-- What the members of an object make of a state, where each step gives a result somewhere. -/
inductive Trace (step : σ → String → Reader σ) : σ → List (String × List Char) → σ → Prop
  | nil (state : σ) : Trace step state [] state
  | cons {state state' state'' : σ} {name : String} {text before after rest : List Char} {room : Nat}
    {members : List (String × List Char)} (hBefore : Blank before) (hAfter : Blank after) (hRest : Delimited rest)
    (hStep : (step state name).Reads room (before ++ ':' :: (after ++ (text ++ rest))) state' rest)
    (hMembers : Trace step state' members state'') : Trace step state ((name, text) :: members) state''

/-- Whether the name of a member is read somewhere for that of an entry. -/
def Called (entry : List Char × List Char) (member : String × List Char) : Prop :=
  (∃ more, readString (entry.1 ++ more) = .ok (member.1.toList, more)) ∧ entry.2 = member.2

/-- What is read for a name is the name that it spells. -/
theorem eq_of_called {entries : List (List Char × List Char)} {members members' : List (String × List Char)}
    (hNames : List.Forall₂ Names entries members) (h : List.Forall₂ Called entries members') : members' = members := by
  induction hNames generalizing members' with
  | nil =>
    cases h
    rfl
  | @cons entry member entries members hName _ ih =>
    cases h with
    | @cons _ member' _ _ hCalled hOthers =>
      obtain ⟨more, hRead⟩ := hCalled.1
      rw [hName.1 more] at hRead
      have hSame : member'.1 = member.1 := String.toList_inj.mp (Prod.mk.inj (Except.ok.inj hRead)).1.symm
      rw [ih hOthers, Prod.ext hSame (hCalled.2.symm.trans hName.2)]

section members

variable {step : σ → String → Reader σ} {room : Nat} {text rest rest' : List Char} {state state' : σ}
  {entries : List (List Char × List Char)}

theorem StepExact.reads_foldWithin (hExact : StepExact step) {first : Bool} {limit : List Char}
    (h : Entries first entries text) (hNames : ∀ entry ∈ entries, StringBody entry.1)
    (hValues : ∀ entry ∈ entries, IsValue entry.2)
    (hRead : (foldWithin step limit first state).Reads room (text ++ '}' :: rest) state' rest') :
    '}' :: rest = rest' ∧ ∃ members, List.Forall₂ Called entries members ∧ Trace step state members state' := by
  induction h generalizing limit state with
  | @nil first blanks hBlanks =>
    cases limit with
    | nil => exact absurd hRead not_reads_throw
    | cons _ limit =>
      rw [foldWithin] at hRead
      unfold Reads at hRead
      rw [bind_ok (hasMember_nil hBlanks)] at hRead
      cases hRead
      exact ⟨rfl, [], .nil, .nil _⟩
  | @cons first before after beforeColon afterColon quoted text others entries hBefore hAfter hBeforeColon hAfterColon
      hRest ih =>
    obtain ⟨hName, hOtherNames⟩ := List.forall_mem_cons.mp hNames
    obtain ⟨hValue, hOthers⟩ := List.forall_mem_cons.mp hValues
    cases limit with
    | nil => exact absurd hRead not_reads_throw
    | cons _ limit =>
      simp only [List.append_assoc, List.cons_append] at hRead
      rw [foldWithin] at hRead
      unfold Reads at hRead
      rw [bind_ok (hasMember_cons hBefore hAfter)] at hRead
      obtain ⟨name, _, hString, hRead⟩ := reads_bind hRead
      obtain ⟨rfl, hCalled⟩ := reads_stringBody hName hString
      obtain ⟨next, _, hNext, hRead⟩ := reads_bind hRead
      have hDelimited := hRest.delimited rest
      obtain rfl := hExact hValue hBeforeColon hAfterColon hDelimited hNext
      obtain ⟨rfl, members, hMembers, hTrace⟩ := ih hOtherNames hOthers hRead
      exact ⟨rfl, (name, text) :: members, .cons ⟨⟨_, hCalled⟩, rfl⟩ hMembers,
        .cons hBeforeColon hAfterColon hDelimited hNext hTrace⟩

theorem StepExact.reads_object (hExact : StepExact step) (h : Entries true entries text)
    (hNames : ∀ entry ∈ entries, StringBody entry.1) (hValues : ∀ entry ∈ entries, IsValue entry.2)
    (hRead : (nested (do take; fold step state)).Reads room ('{' :: (text ++ '}' :: rest)) state' rest') :
    '}' :: rest = rest' ∧ ∃ members, List.Forall₂ Called entries members ∧ Trace step state members state' := by
  obtain ⟨room, hRead⟩ := reads_nested hRead
  replace hRead := reads_after_take hRead
  obtain ⟨_, _, hMeasure, hRead⟩ := reads_bind hRead
  cases hMeasure
  exact hExact.reads_foldWithin h hNames hValues hRead

theorem Exact.step_insertMember {value : Reader Json} (hExact : value.Exact) :
    StepExact fun members name => do colon; return insertMember name (← value) members := by
  intro members name text room before after rest members' rest' hText hBefore hAfter hRest hRead
  obtain ⟨_, _, hColon, hRead⟩ := reads_bind hRead
  obtain rfl := reads_colon hBefore hColon
  obtain ⟨x, _, hValue, hRead⟩ := reads_bind hRead
  obtain ⟨-, rfl⟩ := reads_pure hRead
  exact hExact hText hAfter hRest hValue

end members

/-! ## Values of any type -/

theorem exact_valueWithin (fuel : List Char) : (valueWithin fuel).Exact := by
  induction fuel with
  | nil =>
    intro _ _ _ _ _ _ _ _ _ hRead
    exact absurd hRead not_reads_throw
  | cons _ fuel ih =>
    intro text room blanks rest x rest' hText hBlanks hRest hRead
    rw [valueWithin] at hRead
    obtain ⟨next, _, hPeek, hRead⟩ := reads_bind hRead
    cases hText with
    | null | yes | no =>
      obtain ⟨rfl, rfl⟩ := reads_peek hBlanks (by decide) hPeek
      simp only [Char.reduceEq, if_true, if_false] at hRead
      replace hRead := reads_after_take hRead
      obtain ⟨_, _, hLiteral, hRead⟩ := reads_bind hRead
      obtain ⟨-, rfl⟩ := reads_pure hRead
      exact reads_literal hLiteral
    | number h =>
      obtain ⟨c, tail, rfl, hDigit⟩ := h.head
      obtain ⟨rfl, rfl⟩ := reads_peek hBlanks (isBlank_of_isDigit hDigit) hPeek
      have hNe (other : Char) (hOther : isDigit other = false) : (c = other) = False :=
        eq_false (ne_of_isDigit hDigit hOther)
      simp only [hNe 'n' rfl, hNe 't' rfl, hNe 'f' rfl, hNe '-' rfl, hDigit, if_false, if_true] at hRead
      obtain ⟨number, _, hNumber, hRead⟩ := reads_bind hRead
      obtain ⟨-, rfl⟩ := reads_pure hRead
      exact reads_number h hRest hNumber
    | negative h =>
      obtain ⟨rfl, rfl⟩ := reads_peek hBlanks (by decide) hPeek
      simp only [Char.reduceEq, if_true, if_false] at hRead
      replace hRead := reads_after_take hRead
      obtain ⟨number, _, hNumber, hRead⟩ := reads_bind hRead
      obtain ⟨-, rfl⟩ := reads_pure hRead
      exact reads_number h hRest hNumber
    | string h =>
      obtain ⟨rfl, rfl⟩ := reads_peek hBlanks (by decide) hPeek
      simp only [Char.reduceEq, if_true, if_false, show isDigit '"' = false from rfl, Bool.false_eq_true] at hRead
      replace hRead := reads_after_take hRead
      obtain ⟨string, _, hString, hRead⟩ := reads_bind hRead
      obtain ⟨-, rfl⟩ := reads_pure hRead
      exact (reads_stringBody h hString).1
    | array hElements h =>
      simp only [List.cons_append, List.append_assoc, List.nil_append] at hPeek
      obtain ⟨rfl, rfl⟩ := reads_peek hBlanks (by decide) hPeek
      simp only [Char.reduceEq, if_true, if_false, show isDigit '[' = false from rfl, Bool.false_eq_true] at hRead
      obtain ⟨elements, _, hItems, hRead⟩ := reads_bind hRead
      obtain ⟨_, _, hEnd, hRead⟩ := reads_bind hRead
      obtain ⟨-, rfl⟩ := reads_pure hRead
      obtain ⟨rfl, -⟩ := Exact.reads_array ih hElements h hItems
      exact reads_endList hEnd
    | object hEntries hNames h =>
      simp only [List.cons_append, List.append_assoc, List.nil_append] at hPeek
      obtain ⟨rfl, rfl⟩ := reads_peek hBlanks (by decide) hPeek
      simp only [Char.reduceEq, if_true, if_false, show isDigit '{' = false from rfl, Bool.false_eq_true] at hRead
      obtain ⟨members, _, hMembers, hRead⟩ := reads_bind hRead
      obtain ⟨_, _, hEnd, hRead⟩ := reads_bind hRead
      obtain ⟨-, rfl⟩ := reads_pure hRead
      obtain ⟨rfl, -⟩ := (Exact.step_insertMember ih).reads_object hEntries hNames h hMembers
      exact reads_endObject hEnd

theorem exact_value : value.Exact := by
  intro text room blanks rest x rest' hText hBlanks hRest hRead
  obtain ⟨_, _, hMeasure, hRead⟩ := reads_bind hRead
  cases hMeasure
  exact exact_valueWithin _ hText hBlanks hRest hRead

end Reader

end Listfile.Json
