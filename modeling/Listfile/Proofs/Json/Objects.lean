import Listfile.Proofs.Json.Exact
/-! # Records from objects

A record takes an object in which each of its members stands exactly once, in whatever order and among whatever others.
An object for which it gives a result at all is one in which no member of the record stands twice, and each stands there
that must.
-/
namespace Listfile.Json
set_option autoImplicit false

variable {α : Type}

/-- The text of an object with the given members, in any order, and others that have none of the names. -/
def Struct (names : List String) (fields : List (String × List Char)) (text : List Char) : Prop :=
  ∃ others members, IsObject members text ∧ members.Perm (fields ++ others) ∧
    ∀ other ∈ others, other.1 ∉ names ∧ IsValue other.2

theorem Struct.exists_members {names : List String} {fields : List (String × List Char)} {text : List Char}
    (h : Struct names fields text) (hFields : ∀ field ∈ fields, IsValue field.2) :
    ∃ members, IsObject members text ∧ (∀ member ∈ members, IsValue member.2) ∧ fields ⊆ members := by
  obtain ⟨others, members, hObject, hPerm, hOthers⟩ := h
  refine ⟨members, hObject, fun member hMember => ?_, fun field hField => ?_⟩
  · rcases List.mem_append.mp (hPerm.subset hMember) with hField | hOther
    · exact hFields member hField
    · exact (hOthers member hOther).2
  · exact hPerm.symm.subset (List.mem_append_left others hField)

theorem Struct.isValue {names : List String} {fields : List (String × List Char)} {text : List Char}
    (h : Struct names fields text) (hFields : ∀ field ∈ fields, IsValue field.2) : IsValue text := by
  obtain ⟨members, hObject, hValues, -⟩ := h.exists_members hFields
  exact hObject.isValue hValues

theorem Struct.length_lt {names : List String} {fields : List (String × List Char)} {text : List Char}
    (h : Struct names fields text) {field : String × List Char} (hField : field ∈ fields) :
    field.2.length < text.length := by
  obtain ⟨others, members, hObject, hPerm, -⟩ := h
  exact hObject.length_lt (hPerm.symm.subset (List.mem_append_left others hField))

namespace Record

open Reader

/-- The names of the members that must not be absent. -/
def required {τ : Type} : Record τ → List String
  | done => []
  | member name _ absent rest => if absent.isSome then rest.required else name :: rest.required

def AllExact {τ : Type} : Record τ → Prop
  | done => True
  | member _ value _ rest => value.Exact ∧ rest.AllExact

/-! ## Members by name -/

/-- The members of an object with one name. -/
def called (name : String) (members : List (String × List Char)) : List (String × List Char) :=
  members.filter fun member => member.1 = name

def others (name : String) (members : List (String × List Char)) : List (String × List Char) :=
  members.filter fun member => member.1 ≠ name

/-- Whether each member of a record stands at most once in an object, is read as the given value there, and has the
value that stands for its absence otherwise. -/
def Holds (reads : ∀ {α : Type}, Reader α → List Char → α → Prop) {τ : Type} :
    Record τ → τ → List (String × List Char) → Prop
  | done, _, _ => True
  | member name value absent rest, (x, xs), members =>
    ((∃ text, called name members = [(name, text)] ∧ reads value text x) ∨
      (called name members = [] ∧ absent = some x)) ∧
      rest.Holds reads xs (others name members)

section byName

variable {name key : String} {text : List Char} {members members' : List (String × List Char)}

theorem called_cons_self : called name ((name, text) :: members) = (name, text) :: called name members := by
  simp [called]

theorem called_cons_of_ne (h : key ≠ name) : called name ((key, text) :: members) = called name members := by
  simp [called, h]

theorem others_cons_self : others name ((name, text) :: members) = others name members := by
  simp [others]

theorem others_cons_of_ne (h : key ≠ name) :
    others name ((key, text) :: members) = (key, text) :: others name members := by
  simp [others, h]

theorem called_eq_nil_iff : called name members = [] ↔ name ∉ members.map Prod.fst := by
  rw [called, List.filter_eq_nil_iff]
  constructor
  · intro hNone hMem
    obtain ⟨member, hMember, hName⟩ := List.mem_map.mp hMem
    exact hNone member hMember (decide_eq_true hName)
  · intro hNew member hMember hName
    exact hNew (List.mem_map.mpr ⟨member, hMember, of_decide_eq_true hName⟩)

theorem others_eq_self (h : name ∉ members.map Prod.fst) : others name members = members := by
  rw [others, List.filter_eq_self]
  intro member hMember
  simp only [ne_eq, decide_not, Bool.not_eq_eq_eq_not, Bool.not_true, decide_eq_false_iff_not]
  rintro rfl
  exact h (List.mem_map_of_mem hMember)

end byName

section holds

variable {reads : ∀ {α : Type}, Reader α → List Char → α → Prop} {τ : Type} {name : String} {value : Reader α}
  {absent : Option α} {rest : Record τ} {x : α} {xs : τ} {text : List Char} {members : List (String × List Char)}

/-- The order of members does not matter. -/
theorem Holds.perm {record : Record τ} {members' : List (String × List Char)} (h : record.Holds reads xs members)
    (hPerm : members.Perm members') : record.Holds reads xs members' := by
  induction record generalizing members members' with
  | done => trivial
  | member name value absent rest ih =>
    obtain ⟨x, xs⟩ := xs
    obtain ⟨hMember, hRest⟩ := h
    refine ⟨?_, ih hRest (hPerm.filter _)⟩
    have hCalled : (called name members).Perm (called name members') := hPerm.filter _
    rcases hMember with ⟨text, hOne, hReads⟩ | ⟨hNone, hAbsent⟩
    · rw [hOne] at hCalled
      exact .inl ⟨text, (List.singleton_perm.mp hCalled).symm, hReads⟩
    · rw [hNone] at hCalled
      exact .inr ⟨List.nil_perm.mp hCalled, hAbsent⟩

theorem holds_cons (hReads : reads value text x) (hNew : name ∉ members.map Prod.fst)
    (h : rest.Holds reads xs members) :
    (member name value absent rest).Holds reads (x, xs) ((name, text) :: members) := by
  refine ⟨.inl ⟨text, ?_, hReads⟩, ?_⟩
  · rw [called_cons_self, called_eq_nil_iff.mpr hNew]
  · rw [others_cons_self, others_eq_self hNew]
    exact h

theorem holds_absent (hNew : name ∉ members.map Prod.fst) (h : rest.Holds reads xs members) :
    (member name value (some x) rest).Holds reads (x, xs) members := by
  refine ⟨.inr ⟨called_eq_nil_iff.mpr hNew, rfl⟩, ?_⟩
  rw [others_eq_self hNew]
  exact h

theorem called_append {others : List (String × List Char)} (h : name ∉ others.map Prod.fst) :
    called name (members ++ others) = called name members := by
  have hNone : called name others = [] := called_eq_nil_iff.mpr h
  rw [called] at hNone ⊢
  rw [List.filter_append, hNone, List.append_nil, called]

/-- Members with other names do not matter. -/
theorem Holds.append {record : Record τ} (h : record.Holds reads xs members) {more : List (String × List Char)}
    (hOthers : ∀ name ∈ record.names, name ∉ more.map Prod.fst) : record.Holds reads xs (members ++ more) := by
  induction record generalizing members more with
  | done => trivial
  | member name value absent rest ih =>
    obtain ⟨x, xs⟩ := xs
    obtain ⟨hMember, hRest⟩ := h
    obtain ⟨hName, hNames⟩ := List.forall_mem_cons.mp hOthers
    refine ⟨by rwa [called_append hName], ?_⟩
    rw [Record.others, List.filter_append]
    exact ih hRest fun name hMem hOther => hNames name hMem (List.map_subset _ (List.filter_subset_self _) hOther)

end holds

/-! ## Reading members -/

section chain

variable {τ : Type} {name : String} {value : Reader α} {absent : Option α} {rest : Record τ}
  {slots slots' : rest.Slots} {slot slot' : Option α} {members : List (String × List Char)}

/-- The members with one name fill its slot, and all others are left to the rest of the record. -/
theorem chain_of_called (h : Chain rest.readMember slots (others name members) slots')
    (hSlot : (called name members = [] ∧ slot' = slot) ∨
      (slot = none ∧ ∃ text x, called name members = [(name, text)] ∧ value.Takes text x ∧ slot' = some x)) :
    Chain (member name value absent rest).readMember (slot, slots) members (slot', slots') := by
  induction members generalizing slot slots with
  | nil =>
    cases h
    rcases hSlot with ⟨-, rfl⟩ | ⟨-, _, _, hCalled, -⟩
    · exact .nil _
    · cases hCalled
  | cons first members ih =>
    obtain ⟨key, text⟩ := first
    by_cases hKey : key = name
    · subst hKey
      rw [others_cons_self] at h
      rw [called_cons_self] at hSlot
      rcases hSlot with ⟨hCalled, -⟩ | ⟨rfl, text', x, hCalled, hValue, rfl⟩
      · cases hCalled
      · -- No later member has the name, and so its slot stays as it is filled here.
        obtain ⟨hText, hNone⟩ := List.cons.inj hCalled
        cases hText
        refine .cons (fun blanks hBlanks => ?_) (ih h (.inl ⟨hNone, rfl⟩))
        rw [readMember_none]
        exact takes_colon hValue hBlanks fun _ _ => rfl
    · rw [others_cons_of_ne hKey] at h
      rw [called_cons_of_ne hKey] at hSlot
      cases h with
      | cons hStep hChain =>
        refine .cons (fun blanks hBlanks => ?_) (ih hChain hSlot)
        rw [readMember_of_ne name value absent rest slots hKey slot]
        exact (hStep blanks hBlanks).bind fun _ _ => rfl

theorem called_of_trace (h : Trace (member name value absent rest).readMember (slot, slots) members (slot', slots')) :
    Trace rest.readMember slots (others name members) slots' ∧ ((called name members = [] ∧ slot' = slot) ∨
      (slot = none ∧ ∃ text x, called name members = [(name, text)] ∧ value.Accepts text ∧ slot' = some x)) := by
  induction members generalizing slot slots with
  | nil =>
    cases h
    exact ⟨.nil _, .inl ⟨rfl, rfl⟩⟩
  | cons first members ih =>
    obtain ⟨key, text⟩ := first
    cases h with
    | @cons _ next _ _ _ before after more room _ hBefore hAfter hRest hStep hMembers =>
      obtain ⟨slot'', slots''⟩ := next
      obtain ⟨hOthers, hCalled⟩ := ih hMembers
      by_cases hKey : key = name
      · subst hKey
        rw [others_cons_self, called_cons_self]
        cases slot with
        | some x =>
          -- The member stands here for the second time.
          rw [readMember_some] at hStep
          obtain ⟨_, _, h, -⟩ := reads_bind hStep
          exact absurd h not_reads_throw
        | none =>
          rw [readMember_none] at hStep
          obtain ⟨_, _, hColon, hStep⟩ := reads_bind hStep
          obtain rfl := reads_colon hBefore hColon
          obtain ⟨x, _, hValue, hStep⟩ := reads_bind hStep
          obtain ⟨hSlots, -⟩ := reads_pure hStep
          cases hSlots
          rcases hCalled with ⟨hNone, rfl⟩ | ⟨hSome, -⟩
          · exact ⟨hOthers, .inr ⟨rfl, text, x, by rw [hNone], ⟨_, _, _, _, _, hAfter, hRest, hValue⟩, rfl⟩⟩
          · cases hSome
      · rw [others_cons_of_ne hKey, called_cons_of_ne hKey]
        rw [readMember_of_ne name value absent rest slots hKey slot] at hStep
        obtain ⟨_, _, hStep, hPure⟩ := reads_bind hStep
        obtain ⟨hSlots, rfl⟩ := reads_pure hPure
        cases hSlots
        exact ⟨.cons hBefore hAfter hRest hStep hOthers, hCalled⟩

end chain

section object

variable {τ : Type} {record : Record τ} {x : τ} {members : List (String × List Char)} {inner : List Char}

/-- Members with other names are passed over. -/
theorem chain_of_holds (h : record.Holds @Takes x members)
    (hValues : ∀ member ∈ members, member.1 ∉ record.names → IsValue member.2) :
    ∃ slots, Chain record.readMember record.noSlots members slots ∧ record.finish slots = .ok x := by
  induction record generalizing members with
  | done =>
    refine ⟨(), ?_, rfl⟩
    induction members with
    | nil => exact .nil _
    | cons member members ih =>
      obtain ⟨hValue, hOthers⟩ := List.forall_mem_cons.mp hValues
      refine .cons (fun blanks hBlanks => ?_) (ih trivial hOthers)
      exact takes_colon (fun room blanks rest hBlanks _ hRest =>
        passes_skip (hValue List.not_mem_nil) room blanks rest hBlanks hRest) hBlanks fun _ _ => rfl
  | member name value absent rest ih =>
    obtain ⟨x, xs⟩ := x
    obtain ⟨hMember, hRest⟩ := h
    obtain ⟨slots, hChain, hFinish⟩ := ih hRest fun member hMember hNew => by
      obtain ⟨hMember, hOther⟩ := List.mem_filter.mp hMember
      exact hValues member hMember (List.not_mem_cons_of_ne_of_not_mem (of_decide_eq_true hOther) hNew)
    rcases hMember with ⟨text, hCalled, hValue⟩ | ⟨hCalled, hAbsent⟩
    · refine ⟨(some x, slots), chain_of_called hChain (.inr ⟨rfl, text, x, hCalled, hValue, rfl⟩), ?_⟩
      rw [finish]
      simp only [Option.some_or, hFinish]
      rfl
    · refine ⟨(none, slots), chain_of_called hChain (.inl ⟨hCalled, rfl⟩), ?_⟩
      rw [finish]
      simp only [Option.none_or, hAbsent, hFinish]
      rfl

theorem takes_object (name : String) {text : List Char} (hObject : IsObject members text)
    (h : record.Holds @Takes x members) (hValues : ∀ member ∈ members, member.1 ∉ record.names → IsValue member.2) :
    (record.read name).Takes text x := by
  obtain ⟨inner, rfl, hMembers⟩ := hObject
  obtain ⟨slots, hChain, hFinish⟩ := chain_of_holds h hValues
  intro room blanks rest hBlanks hRoom _
  simp only [List.length_cons, List.length_append, List.length_nil] at hRoom
  simp only [List.cons_append, List.append_assoc, List.nil_append]
  refine (bind_ok (peek_ok hBlanks (by decide))).trans ?_
  refine (bind_ok (nested_fold_ok hMembers hChain (by omega))).trans ?_
  rw [hFinish]
  refine (bind_ok rfl).trans ?_
  exact (bind_ok (endObject_ok blank_nil)).trans rfl

/-- The others are passed over, and so it does not matter where they stand. -/
theorem takes_struct (name : String) {text : List Char} {fields : List (String × List Char)}
    (hText : Struct record.names fields text) (hFields : ∀ field ∈ fields, field.1 ∈ record.names)
    (h : record.Holds @Takes x fields) : (record.read name).Takes text x := by
  obtain ⟨others, members, hObject, hPerm, hOthers⟩ := hText
  have hNew : ∀ name ∈ record.names, name ∉ others.map Prod.fst := by
    intro name hName hMem
    obtain ⟨other, hOther, rfl⟩ := List.mem_map.mp hMem
    exact (hOthers other hOther).1 hName
  refine takes_object name hObject ((h.append hNew).perm hPerm.symm) fun member hMember hName => ?_
  rcases List.mem_append.mp (hPerm.subset hMember) with hField | hOther
  · exact absurd (hFields member hField) hName
  · exact (hOthers member hOther).2

/-! ## Objects for which there is a result -/

theorem holds_of_trace {slots : record.Slots} (h : Trace record.readMember record.noSlots members slots)
    (hFinish : record.finish slots = .ok x) : record.Holds (fun reader text _ => reader.Accepts text) x members := by
  induction record generalizing members with
  | done => trivial
  | member name value absent rest ih =>
    obtain ⟨x, xs⟩ := x
    obtain ⟨slot, slots⟩ := slots
    obtain ⟨hTrace, hCalled⟩ := called_of_trace h
    rw [finish] at hFinish
    cases hSlot : slot.or absent with
    | none =>
      simp only [hSlot] at hFinish
      cases hFinish
    | some y =>
      simp only [hSlot] at hFinish
      cases hOthers : rest.finish slots with
      | error error =>
        rw [hOthers] at hFinish
        cases hFinish
      | ok values =>
        rw [hOthers] at hFinish
        cases hFinish
        refine ⟨?_, ih hTrace hOthers⟩
        rcases hCalled with ⟨hNone, rfl⟩ | ⟨-, text, x, hOne, hAccepts, -⟩
        · exact .inr ⟨hNone, hSlot⟩
        · exact .inl ⟨text, hOne, hAccepts⟩

theorem stepExact_readMember (h : record.AllExact) : StepExact record.readMember := by
  induction record with
  | done =>
    intro slots key text room before after rest slots' rest' hText hBefore hAfter hRest hRead
    obtain ⟨_, _, hColon, hRead⟩ := reads_bind hRead
    obtain rfl := reads_colon hBefore hColon
    obtain ⟨_, _, hSkip, hRead⟩ := reads_bind hRead
    obtain ⟨-, rfl⟩ := reads_pure hRead
    exact exact_skip hText hAfter hRest hSkip
  | member name value absent others ih =>
    intro slots key text room before after rest slots' rest' hText hBefore hAfter hRest hRead
    obtain ⟨hValue, hOthers⟩ := h
    obtain ⟨slot, slots⟩ := slots
    by_cases hKey : key = name
    · subst hKey
      cases slot with
      | some x =>
        rw [readMember_some] at hRead
        obtain ⟨_, _, h, -⟩ := reads_bind hRead
        exact absurd h not_reads_throw
      | none =>
        rw [readMember_none] at hRead
        obtain ⟨_, _, hColon, hRead⟩ := reads_bind hRead
        obtain rfl := reads_colon hBefore hColon
        obtain ⟨x, _, hGiven, hRead⟩ := reads_bind hRead
        obtain ⟨-, rfl⟩ := reads_pure hRead
        exact hValue hText hAfter hRest hGiven
    · rw [readMember_of_ne name value absent others slots hKey slot] at hRead
      obtain ⟨_, _, hGiven, hRead⟩ := reads_bind hRead
      obtain ⟨-, rfl⟩ := reads_pure hRead
      exact ih hOthers hText hBefore hAfter hRest hGiven

theorem reads_object {name : String} {entries : List (List Char × List Char)} {room : Nat}
    {blanks rest rest' : List Char} (hExact : record.AllExact) (hEntries : Entries true entries inner)
    (hNames : ∀ entry ∈ entries, StringBody entry.1) (hValues : ∀ entry ∈ entries, IsValue entry.2)
    (hBlanks : Blank blanks) (h : (record.read name).Reads room (blanks ++ ('{' :: (inner ++ ['}']) ++ rest)) x rest') :
    rest = rest' ∧ ∃ members, List.Forall₂ Called entries members ∧
      record.Holds (fun reader text _ => reader.Accepts text) x members := by
  simp only [List.cons_append, List.append_assoc, List.nil_append] at h
  replace h := reads_after_peek hBlanks (by decide) h
  obtain ⟨slots, _, hSlots, h⟩ := reads_bind h
  obtain ⟨rfl, members, hCalled, hTrace⟩ := (stepExact_readMember hExact).reads_object hEntries hNames hValues hSlots
  obtain ⟨result, _, hFinish, h⟩ := reads_bind h
  obtain ⟨_, _, hEnd, h⟩ := reads_bind h
  obtain ⟨rfl, rfl⟩ := reads_pure h
  obtain ⟨hResult, rfl⟩ := reads_ofExcept hFinish
  exact ⟨reads_endObject hEnd, members, hCalled, holds_of_trace hTrace hResult⟩

end object

/-! ## Records from lists -/

section elements

variable {τ : Type} {record : Record τ} {x : τ} {text rest rest' : List Char} {room : Nat} {texts : List (List Char)}

theorem reads_readElements (hExact : record.AllExact) {expected : String} {index : Nat}
    {first : Bool} (hIndex : decide (index = 0) = first) (h : Elements first texts text)
    (hTexts : ∀ item ∈ texts, IsValue item)
    (hRead : (record.readElements expected index).Reads room (text ++ ']' :: rest) x rest') :
    ∃ first texts text, Elements first texts text ∧ text ++ ']' :: rest = rest' := by
  induction record generalizing index first texts text with
  | done =>
    obtain ⟨-, rfl⟩ := reads_pure hRead
    exact ⟨_, _, _, h, rfl⟩
  | member name value absent others ih =>
    obtain ⟨hValue, hOthers⟩ := hExact
    rw [readElements, hIndex] at hRead
    unfold Reads at hRead
    cases h with
    | nil hBlanks =>
      rw [bind_ok (hasElement_nil hBlanks)] at hRead
      exact absurd hRead not_reads_throw
    | cons hBefore hAfter hText hRest =>
      obtain ⟨hFirst, hOtherTexts⟩ := List.forall_mem_cons.mp hTexts
      obtain ⟨c, tail, rfl, hBlank, hClosing⟩ := hText
      simp only [List.append_assoc, List.cons_append] at hRead
      rw [bind_ok (hasElement_cons hBefore hAfter hBlank hClosing)] at hRead
      obtain ⟨y, _, hGiven, hRead⟩ := reads_bind hRead
      obtain rfl := hValue hFirst blank_nil (hRest.delimited rest) hGiven
      obtain ⟨ys, _, hElements, hRead⟩ := reads_bind hRead
      obtain ⟨-, rfl⟩ := reads_pure hRead
      exact ih hOthers (decide_eq_false (Nat.succ_ne_zero index)) hRest hOtherTexts hElements

theorem eq_of_reads_endList {c : Char} {blanks : List Char} {u : Unit} (hBlanks : Blank blanks)
    (hBlank : isBlank c = false) (hRead : endList.Reads room (blanks ++ c :: rest) u rest') : c = ']' := by
  replace hRead := reads_after_peek hBlanks hBlank hRead
  by_cases hClosing : c = ']'
  · exact hClosing
  simp only [hClosing, if_false] at hRead
  split at hRead
  · obtain ⟨_, _, -, hRead⟩ := reads_bind hRead
    obtain ⟨_, _, -, hRead⟩ := reads_bind hRead
    split at hRead <;> exact absurd hRead not_reads_throw
  · exact absurd hRead not_reads_throw

/-- Only a list of which all elements have been read can be closed. -/
theorem reads_endList_of_elements {first : Bool} {u : Unit} (h : Elements first texts text)
    (hRead : endList.Reads room (text ++ ']' :: rest) u rest') : rest = rest' := by
  cases h with
  | nil hBlanks =>
    unfold Reads at hRead
    rw [endList_ok hBlanks] at hRead
    cases hRead
    rfl
  | cons hBefore hAfter hText hRest =>
    obtain ⟨c, tail, rfl, hBlank, hClosing⟩ := hText
    cases first with
    | true =>
      simp only [comma, if_true, List.nil_append, List.cons_append, List.append_assoc] at hRead
      rw [← List.append_assoc] at hRead
      exact absurd (eq_of_reads_endList (hBefore.append hAfter) hBlank hRead) hClosing
    | false =>
      simp only [comma, Bool.false_eq_true, if_false, List.nil_append, List.cons_append, List.append_assoc] at hRead
      exact absurd (eq_of_reads_endList hBefore (by decide) hRead) (by decide)

theorem exact_read (hExact : record.AllExact) (name : String) : (record.read name).Exact := by
  intro text room blanks rest x rest' hText hBlanks hRest hRead
  obtain ⟨c, tail, rfl, hBlank, -⟩ := hText.announces
  by_cases hBrace : c = '{'
  · subst hBrace
    obtain ⟨entries, inner, rfl, hEntries, hNames, hValues⟩ := hText.of_brace
    exact (reads_object hExact hEntries hNames hValues hBlanks hRead).1
  replace hRead := reads_after_peek hBlanks hBlank hRead
  split at hRead
  · rename_i hBracket
    cases hBracket
    obtain ⟨texts, inner, rfl, hElements, hTexts⟩ := hText.of_bracket
    extract_lets count at hRead
    obtain ⟨result, _, hItems, hRead⟩ := reads_bind hRead
    obtain ⟨_, _, hEnd, hRead⟩ := reads_bind hRead
    obtain ⟨-, rfl⟩ := reads_pure hRead
    obtain ⟨room, hItems⟩ := reads_nested hItems
    replace hItems := reads_after_take hItems
    simp only [List.append_eq, List.append_assoc, List.cons_append, List.nil_append] at hItems
    obtain ⟨first, texts, text, hLeft, rfl⟩ := reads_readElements hExact (decide_eq_true rfl) hElements hTexts hItems
    exact reads_endList_of_elements hLeft hEnd
  · rename_i hSome
    cases hSome
    exact absurd rfl hBrace
  · exact absurd hRead not_reads_mismatch

end elements

/-! ## Refused objects -/

/-- Whether an object lacks one of the required members or has one of the known members more than once. -/
def Faulty (required known : List String) (members : List (String × List Char)) : Prop :=
  (∃ name ∈ required, name ∉ members.map Prod.fst) ∨ ∃ name ∈ known, 2 ≤ (members.map Prod.fst).count name

/-- Whether the reader of the member with a name has no result for a text. -/
def Refuses {τ : Type} : Record τ → String → List Char → Prop
  | done, _, _ => False
  | member name value _ rest, key, text => (key = name ∧ ¬value.Accepts text) ∨ rest.Refuses key text

section refused

variable {τ : Type} {record : Record τ} {x : τ} {members : List (String × List Char)} {text : List Char}

theorem length_called (name : String) (members : List (String × List Char)) :
    (called name members).length = (members.map Prod.fst).count name := by
  rw [called, List.count_eq_countP, List.countP_map, List.countP_eq_length_filter]
  rfl

theorem called_others {name other : String} (h : name ≠ other) (members : List (String × List Char)) :
    called name (others other members) = called name members := by
  rw [called, called, others, List.filter_filter]
  refine List.filter_congr fun member _ => ?_
  by_cases hName : member.1 = name
  · simp [hName, h]
  · simp [hName]

theorem not_faulty_of_holds {reads : ∀ {α : Type}, Reader α → List Char → α → Prop} (hNames : record.names.Nodup)
    (h : record.Holds reads x members) : ¬Faulty record.required record.names members := by
  induction record generalizing members with
  | done => rintro (⟨_, hName, -⟩ | ⟨_, hName, -⟩) <;> cases hName
  | member key value absent rest ih =>
    obtain ⟨hNew, hOthers⟩ := List.nodup_cons.mp hNames
    obtain ⟨x, xs⟩ := x
    obtain ⟨hCalled, hRest⟩ := h
    have hRest := ih hOthers hRest
    rintro (⟨name, hName, hAbsent⟩ | ⟨name, hName, hTwice⟩)
    · have hLeft (hName : name ∈ rest.required) : False :=
        hRest (.inl ⟨name, hName, fun hMem => hAbsent (List.map_subset _ (List.filter_subset_self _) hMem)⟩)
      rw [required] at hName
      split at hName
      · exact hLeft hName
      · rename_i hRequired
        rcases List.mem_cons.mp hName with rfl | hName
        · rcases hCalled with ⟨text, hOne, -⟩ | ⟨-, rfl⟩
          · rw [called_eq_nil_iff.mpr hAbsent] at hOne
            cases hOne
          · exact hRequired rfl
        · exact hLeft hName
    · rcases List.mem_cons.mp hName with rfl | hName
      · rw [← length_called] at hTwice
        rcases hCalled with ⟨text, hOne, -⟩ | ⟨hNone, -⟩
        · rw [hOne, List.length_singleton] at hTwice
          omega
        · rw [hNone, List.length_nil] at hTwice
          omega
      · have hNe : name ≠ key := fun hEq => hNew (hEq ▸ hName)
        refine hRest (.inr ⟨name, hName, ?_⟩)
        rwa [← length_called, called_others hNe, length_called]

theorem mem_names_of_refuses {key : String} (h : record.Refuses key text) : key ∈ record.names := by
  induction record with
  | done => cases h
  | member name value absent rest ih =>
    rcases h with ⟨rfl, -⟩ | h
    · exact List.mem_cons_self
    · exact List.mem_cons_of_mem _ (ih h)

theorem not_refuses_of_holds (hNames : record.names.Nodup) {key : String}
    (h : record.Holds (fun reader text _ => reader.Accepts text) x members) (hMem : (key, text) ∈ members) :
    ¬record.Refuses key text := by
  induction record generalizing members with
  | done => exact not_false
  | member name value absent rest ih =>
    obtain ⟨hNew, hOthers⟩ := List.nodup_cons.mp hNames
    obtain ⟨x, xs⟩ := x
    obtain ⟨hCalled, hRest⟩ := h
    rintro (⟨rfl, hNot⟩ | hRefuses)
    · have hMember : (key, text) ∈ called key members := List.mem_filter.mpr ⟨hMem, decide_eq_true rfl⟩
      rcases hCalled with ⟨text', hOne, hAccepts⟩ | ⟨hNone, -⟩
      · rw [hOne] at hMember
        cases List.mem_singleton.mp hMember
        exact hNot hAccepts
      · rw [hNone] at hMember
        cases hMember
    · have hNe : key ≠ name := fun hEq => hNew (hEq ▸ mem_names_of_refuses hRefuses)
      exact ih hOthers hRest (List.mem_filter.mpr ⟨hMem, decide_eq_true hNe⟩) hRefuses

end refused

section accepts

variable {τ : Type} {record : Record τ} {members : List (String × List Char)} {text : List Char}

theorem holds_of_accepts (hExact : record.AllExact) {name : String} (hObject : IsObject members text)
    (hValues : ∀ member ∈ members, IsValue member.2) (h : (record.read name).Accepts text) :
    ∃ x, record.Holds (fun reader text _ => reader.Accepts text) x members := by
  obtain ⟨inner, rfl, hMembers⟩ := hObject
  obtain ⟨entries, hEntries, hNames, hBodies, hEntryValues⟩ := hMembers.exists_entries hValues
  obtain ⟨room, blanks, rest, x, rest', hBlanks, -, hRead⟩ := h
  obtain ⟨-, members', hCalled, hHolds⟩ := reads_object hExact hEntries hBodies hEntryValues hBlanks hRead
  rw [Reader.eq_of_called hNames hCalled] at hHolds
  exact ⟨x, hHolds⟩

theorem not_accepts_of_faulty (hExact : record.AllExact) (hNames : record.names.Nodup) {name : String}
    (hObject : IsObject members text) (hValues : ∀ member ∈ members, IsValue member.2)
    (h : Faulty record.required record.names members) : ¬(record.read name).Accepts text := by
  intro hAccepts
  obtain ⟨x, hHolds⟩ := holds_of_accepts hExact hObject hValues hAccepts
  exact not_faulty_of_holds hNames hHolds h

theorem not_accepts_of_refuses (hExact : record.AllExact) (hNames : record.names.Nodup) {name key : String}
    {value : List Char} (hObject : IsObject members text) (hValues : ∀ member ∈ members, IsValue member.2)
    (hMem : (key, value) ∈ members) (h : record.Refuses key value) : ¬(record.read name).Accepts text := by
  intro hAccepts
  obtain ⟨x, hHolds⟩ := holds_of_accepts hExact hObject hValues hAccepts
  exact not_refuses_of_holds hNames hHolds hMem h

end accepts

end Record

end Listfile.Json
