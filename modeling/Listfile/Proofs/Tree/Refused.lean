import Listfile.Proofs.Tree.Exact
import Listfile.Proofs.Tree.ReadBack
/-! # Trees that are refused

A known node in which a member is missing or stands twice, whose tag is not alone in its object, or which has `null`
for its contents, is refused, whatever else is in it. So is every tree with such a node in it, since the readers of all
nodes above take the text of each child as a whole or give no result.
-/
namespace Listfile
set_option autoImplicit false

open Json (Reader Record Struct IsObject IsValue)
open Json.Reader

namespace Node

variable {reader : Reader Node}

/-! ## Texts that are values -/

theorem isValue_toDigits {n : Nat} (h : Json.Fits n) : IsValue (Nat.toDigits 10 n) := by
  have hNumber : IsValue (Json.Number.integer n).text.toList :=
    Json.isValue_number ⟨by omega, Int.ofNat_lt.mpr h⟩
  have hText : (Json.Number.integer n).text.toList = Nat.toDigits 10 n := String.toList_ofList
  rwa [hText] at hNumber

theorem isValue_spanText {span : Span} (hStart : Json.Fits span.start) (hStop : Json.Fits span.stop) {text : List Char}
    (h : Struct Span.memberNames span.spelledMembers text) : IsValue text := by
  refine h.isValue (List.forall_mem_cons.mpr ⟨isValue_toDigits hStart, ?_⟩)
  exact List.forall_mem_singleton.mpr (isValue_toDigits hStop)

section values

variable {child : Step → Node → List Char → Prop} {node : Node} {field : Field} {text : List Char}

theorem isValue_of_field (hField : field ∈ node.fields) (h : field.Spelled (fun _ _ => IsValue) text) :
    IsValue text := by
  cases field with
  | data => exact Json.isValue_of_spelled _ (writable_of_data hField) h
  | one => exact h
  | optional slot child =>
    cases child with
    | none =>
      rw [Field.Spelled] at h
      rw [h]
      exact .null
    | some => exact h
  | many slot children =>
    obtain ⟨texts, inner, rfl, hElements, hTexts⟩ := h
    refine .array hElements fun text hText => ?_
    obtain ⟨_, -, hValue⟩ := exists_of_forall₂ hTexts.flip hText
    exact hValue

theorem isValue_of_payload (hLegible : node.Legible) (h : node.SpellsPayload (fun _ _ => IsValue) text) :
    IsValue text := by
  cases hKind : node.kind? with
  | none =>
    cases node with
    | unrecognized => exact Json.isValue_of_spelled _ hLegible.2.2 h
    | _ => cases hKind
  | some kind =>
    obtain ⟨members, hMembers, hText⟩ := (spellsPayload_iff hKind).mp h
    refine hText.isValue fun member hMember => ?_
    obtain ⟨field, hField, -, hSpelled⟩ := hMembers.exists_field member hMember
    exact isValue_of_field hField hSpelled

theorem isValue_spelledMembers {kindText spanText : List Char} (hFits : node.place.Fits) (hKind : IsValue kindText)
    (hSpan : IsValue spanText) : ∀ member ∈ node.spelledMembers kindText spanText, IsValue member.2 := by
  obtain ⟨-, -, hLine, hColumn⟩ := hFits
  refine List.forall_mem_cons.mpr ⟨hKind, List.forall_mem_cons.mpr ⟨hSpan, ?_⟩⟩
  exact List.forall_mem_cons.mpr ⟨isValue_toDigits hLine, List.forall_mem_singleton.mpr (isValue_toDigits hColumn)⟩

/-- The members of the object for a node, with those of the object for its kind. -/
theorem exists_members_of_spells (hLegible : node.Legible) (h : node.Spells child text)
    (hValues : ∀ step node text, child step node text → IsValue text) : ∃ members kindText payloadText,
      IsObject members text ∧ (∀ member ∈ members, IsValue member.2) ∧ ("kind", kindText) ∈ members ∧
        IsObject [(node.tag, payloadText)] kindText ∧ IsValue payloadText ∧ node.SpellsPayload child payloadText := by
  obtain ⟨kindText, spanText, payloadText, hText, hSpanText, hKindText, hPayload⟩ := h
  have hPayloadValue : IsValue payloadText :=
    isValue_of_payload hLegible (hPayload.imp fun _ _ _ _ _ hText => hValues _ _ _ hText)
  have hKind : IsValue kindText := hKindText.isValue (List.forall_mem_singleton.mpr hPayloadValue)
  have hSpan : IsValue spanText := isValue_spanText hLegible.fits.1 hLegible.fits.2.1 hSpanText
  obtain ⟨members, hObject, hMembers, hSubset⟩ :=
    hText.exists_members (isValue_spelledMembers hLegible.fits hKind hSpan)
  exact ⟨members, kindText, payloadText, hObject, hMembers, hSubset List.mem_cons_self, hKindText, hPayloadValue,
    hPayload⟩

theorem isValue_of_spells (hLegible : node.Legible) (h : node.Spells (fun _ _ => IsValue) text) : IsValue text := by
  obtain ⟨members, _, _, hObject, hMembers, -⟩ := exists_members_of_spells hLegible h fun _ _ _ hText => hText
  exact hObject.isValue hMembers

theorem isValue_of_spelled {root : Node} (h : root.Spelled text) (hLegible : root.Everywhere Legible) :
    IsValue text := by
  induction h with
  | intro h _ ih =>
    obtain ⟨hSelf, hBelow⟩ := everywhere_iff.mp hLegible
    exact isValue_of_spells hSelf (h.imp fun step child text' hStored _ hText =>
      ih step child text' hText (hBelow child (List.mem_map_of_mem hStored)))

/-- Whether a text is that of an object and a value. -/
def IsObjectValue (text : List Char) : Prop := IsValue text ∧ ∃ rest, text = '{' :: rest

theorem isObjectValue_of_around {hole : List Char → Prop} (hHole : ∀ text, hole text → IsObjectValue text)
    {path : Path} {root : Node} (hLegible : root.Everywhere Legible) (h : root.SpelledAround hole path text) :
    IsObjectValue text := by
  induction path generalizing root text with
  | nil => exact hHole text h
  | cons step path ih =>
    obtain ⟨hSelf, hBelow⟩ := everywhere_iff.mp hLegible
    have hSpells : root.Spells _ text := h
    refine ⟨isValue_of_spells hSelf (hSpells.imp fun other child text' hStored _ hText => ?_), hSpells.head⟩
    have hChild := hBelow child (List.mem_map_of_mem hStored)
    split at hText
    · exact (ih hChild hText).1
    · exact isValue_of_spelled hText hChild

end values

/-! ## Children -/

section accepts

variable {α β : Type}

theorem accepts_of_bind {part : Reader α} {next : α → Reader β} {text : List Char}
    (h : (part >>= next).Accepts text) : part.Accepts text := by
  obtain ⟨room, blanks, rest, y, rest', hBlanks, hRest, hRead⟩ := h
  obtain ⟨x, text', hPart, -⟩ := reads_bind hRead
  exact ⟨room, blanks, rest, x, text', hBlanks, hRest, hPart⟩

theorem accepts_of_list {item : Reader α} (hItem : item.Exact) {texts : List (List Char)} {inner : List Char}
    (hElements : Json.Elements true texts inner) (hTexts : ∀ text ∈ texts, IsValue text)
    (h : (Reader.list item).Accepts ('[' :: (inner ++ [']']))) : ∀ text ∈ texts, item.Accepts text := by
  obtain ⟨room, blanks, rest, x, rest', hBlanks, -, hRead⟩ := h
  exact (hItem.reads_list hElements hTexts hBlanks hRead).2

theorem accepts_of_optional {value : Reader α} {text : List Char}
    (h : (Reader.optional value).Accepts ('{' :: text)) : value.Accepts ('{' :: text) := by
  obtain ⟨room, blanks, rest, x, rest', hBlanks, hRest, hRead⟩ := h
  replace hRead := reads_after_peek hBlanks (by decide) hRead
  obtain ⟨x, hRead, -⟩ := reads_map hRead
  exact ⟨room, [], rest, x, rest', Json.blank_nil, hRest, hRead⟩

theorem not_accepts_null {τ : Type} {record : Record τ} {name : String} :
    ¬(record.read name).Accepts ['n', 'u', 'l', 'l'] := by
  rintro ⟨room, blanks, rest, x, rest', hBlanks, -, hRead⟩
  replace hRead := reads_after_peek hBlanks (by decide) hRead
  exact not_reads_mismatch hRead

end accepts

section children

variable {child : Step → Node → List Char → Prop} {node node' : Node} {step : Step} {text : List Char}

/-- Where a field is read, all nodes in it are. -/
theorem exists_accepted_of_field (hReader : reader.Exact)
    (hValues : ∀ step node text, child step node text → IsObjectValue text) {field : Field}
    (h : field.Spelled child text) (hAccepted : field.Accepted reader text) (hStored : (step, node) ∈ field.stored) :
    ∃ text, child step node text ∧ reader.Accepts text := by
  cases field with
  | data => cases hStored
  | one slot other =>
    cases List.mem_singleton.mp hStored
    exact ⟨text, h, hAccepted⟩
  | optional slot other =>
    cases other with
    | none => cases hStored
    | some other =>
      cases List.mem_singleton.mp hStored
      obtain ⟨-, rest, rfl⟩ := hValues _ _ _ h
      exact ⟨_, h, accepts_of_optional hAccepted⟩
  | many slot others =>
    obtain ⟨texts, inner, rfl, hElements, hTexts⟩ := h
    have hTextValues : ∀ text ∈ texts, IsValue text := by
      intro text hText
      obtain ⟨_, -, hSpelled⟩ := exists_of_forall₂ hTexts.flip hText
      exact (hValues _ _ _ hSpelled).1
    obtain ⟨text, hText, hSpelled⟩ := exists_of_forall₂ hTexts hStored
    exact ⟨text, hSpelled, accepts_of_list hReader hElements hTextValues hAccepted text hText⟩

theorem exists_accepted_of_payload (hReader : reader.Exact) {kind : Kind} (hKind : node.kind? = some kind)
    (hValues : ∀ step node text, child step node text → IsObjectValue text) (h : node.SpellsPayload child text)
    (hAccepts : (payloadReader reader kind).Accepts text) (hStored : (step, node') ∈ node.stored) :
    ∃ text, child step node' text ∧ reader.Accepts text := by
  obtain ⟨members, hMembers, hText⟩ := (spellsPayload_iff hKind).mp h
  have hFields : ∀ member ∈ members, IsValue member.2 := by
    intro member hMember
    obtain ⟨field, hField, -, hSpelled⟩ := hMembers.exists_field member hMember
    exact isValue_of_field hField (hSpelled.imp fun _ _ _ _ _ hText => (hValues _ _ _ hText).1)
  obtain ⟨all, hObject, hAllValues, hSubset⟩ := hText.exists_members hFields
  obtain ⟨τ, record, x, finish, name, hEq, -, hReadAs⟩ := exists_record reader hKind
  rw [hEq] at hAccepts
  rw [stored_eq_fields] at hStored
  obtain ⟨field, hField, hStored⟩ := List.mem_flatMap.mp hStored
  obtain ⟨fieldText, hMember, hSpelled⟩ := hMembers.exists_member hField (List.ne_nil_of_mem hStored)
  refine exists_accepted_of_field hReader hValues hSpelled ?_ hStored
  -- One member for which there is no result is enough for there to be none for the record.
  by_contra hNot
  have hNames : record.names.Nodup := by
    rw [hReadAs.names]
    exact node.nodup_fields
  exact Record.not_accepts_of_refuses (hReadAs.allExact hReader) hNames hObject hAllValues
    (hSubset hMember) (hReadAs.refuses hField hNot) (accepts_of_bind hAccepts)

end children

/-! ## Damage -/

/-- The text of an object with the given members, all of which are values. -/
def IsObjectOf (members : List (String × List Char)) (text : List Char) : Prop :=
  IsObject members text ∧ ∀ member ∈ members, IsValue member.2

theorem IsObjectOf.isObjectValue {members : List (String × List Char)} {text : List Char}
    (h : IsObjectOf members text) : IsObjectValue text := by
  obtain ⟨hObject, hValues⟩ := h
  refine ⟨hObject.isValue hValues, ?_⟩
  obtain ⟨inner, rfl, -⟩ := hObject
  exact ⟨_, rfl⟩

/-- The object for a span, in which a member is missing or stands twice. -/
def DamagedSpan (text : List Char) : Prop :=
  ∃ members, IsObjectOf members text ∧ Record.Faulty Span.memberNames Span.memberNames members

/-- The contents of a node, in which a required member is missing, or one stands twice; or `null` in their place. -/
def DamagedPayload (node : Node) (text : List Char) : Prop :=
  text = ['n', 'u', 'l', 'l'] ∨ ∃ members, IsObjectOf members text ∧
    Record.Faulty ((node.fields.filter Field.required).map Field.name) (node.fields.map Field.name) members

/-- The object with the tag of a node, which is empty or has more members than the tag, or has damaged contents. -/
def DamagedKind (node : Node) (text : List Char) : Prop :=
  ∃ members, IsObjectOf members text ∧
    (members.length ≠ 1 ∨ ∃ payloadText, members = [(node.tag, payloadText)] ∧ node.DamagedPayload payloadText)

/-- The object for a node, in which a member is missing or stands twice, or is damaged itself. -/
def Damaged (node : Node) (text : List Char) : Prop :=
  ∃ members, IsObjectOf members text ∧ (Record.Faulty memberNames memberNames members ∨
    (∃ spanText, ("span", spanText) ∈ members ∧ DamagedSpan spanText) ∨
    ∃ kindText, ("kind", kindText) ∈ members ∧ node.DamagedKind kindText)

section damage

variable {node : Node} {kind : Kind} {text : List Char}

theorem Damaged.isObjectValue (h : node.Damaged text) : IsObjectValue text := by
  obtain ⟨members, hMembers, -⟩ := h
  exact hMembers.isObjectValue

theorem not_accepts_damagedSpan (h : DamagedSpan text) : ¬Span.reader.Accepts text := by
  obtain ⟨members, ⟨hObject, hValues⟩, hFaulty⟩ := h
  intro hAccepts
  refine Record.not_accepts_of_faulty ?_ ?_ hObject hValues ?_ (accepts_of_bind hAccepts)
  · exact ⟨exact_natural, exact_natural, trivial⟩
  · simp [Record.names]
  · exact hFaulty

theorem not_accepts_damagedPayload (hReader : reader.Exact) (hKind : node.kind? = some kind)
    (h : node.DamagedPayload text) : ¬(payloadReader reader kind).Accepts text := by
  intro hAccepts
  obtain ⟨τ, record, x, finish, name, hEq, -, hReadAs⟩ := exists_record reader hKind
  rw [hEq] at hAccepts
  rcases h with rfl | ⟨members, ⟨hObject, hValues⟩, hFaulty⟩
  · exact not_accepts_null (accepts_of_bind hAccepts)
  · rw [← hReadAs.names, ← hReadAs.required] at hFaulty
    refine Record.not_accepts_of_faulty (hReadAs.allExact hReader) ?_ hObject hValues hFaulty (accepts_of_bind hAccepts)
    rw [hReadAs.names]
    exact node.nodup_fields

theorem not_accepts_damagedKind (hReader : reader.Exact) (hKind : node.kind? = some kind) (h : node.DamagedKind text) :
    ¬(kindReader reader).Accepts text := by
  obtain ⟨members, ⟨hObject, hValues⟩, hDamage⟩ := h
  intro hAccepts
  obtain ⟨member, rfl, hContents⟩ := accepts_kindReader hReader hObject hValues hAccepts
  rcases hDamage with hLength | ⟨payloadText, hMember, hPayload⟩
  · exact hLength rfl
  · cases hMember
    have hTag : Kind.ofName? node.tag = some kind := by rw [tag_of_kind hKind, Kind.ofName?_name]
    exact not_accepts_damagedPayload hReader hKind hPayload (hContents kind hTag)

/-- A node is only read if no member is missing or stands twice, and what is said of its kind and span is read. -/
theorem of_accepts_node {c : Char} {fuel : List Char} {members : List (String × List Char)}
    (hObject : IsObject members text) (hValues : ∀ member ∈ members, IsValue member.2)
    (h : (readerWithin (c :: fuel)).Accepts text) :
    ¬Record.Faulty memberNames memberNames members ∧
      (∀ spanText, ("span", spanText) ∈ members → Span.reader.Accepts spanText) ∧
      ∀ kindText, ("kind", kindText) ∈ members → (kindReader (readerWithin fuel)).Accepts kindText := by
  have hExact := exact_kindReader (exact_readerWithin fuel)
  have hExists := fun hAll => Record.holds_of_accepts hAll hObject hValues (accepts_of_bind h)
  obtain ⟨x, hHolds⟩ := hExists ⟨hExact, Span.exact_reader, exact_natural, exact_natural, trivial⟩
  refine ⟨Record.not_faulty_of_holds (by simp [Record.names]) hHolds, fun spanText hMem => ?_, fun kindText hMem => ?_⟩
  · by_contra hNot
    exact Record.not_refuses_of_holds (by simp [Record.names]) hHolds hMem (.inr (.inl ⟨rfl, hNot⟩))
  · by_contra hNot
    exact Record.not_refuses_of_holds (by simp [Record.names]) hHolds hMem (.inl ⟨rfl, hNot⟩)

theorem not_accepts_nil : ¬(readerWithin []).Accepts text := by
  rintro ⟨room, blanks, rest, x, rest', -, -, hRead⟩
  exact not_reads_throw hRead

theorem not_accepts_damaged (hKind : node.kind? = some kind) (h : node.Damaged text) (fuel : List Char) :
    ¬(readerWithin fuel).Accepts text := by
  cases fuel with
  | nil => exact not_accepts_nil
  | cons c fuel =>
    obtain ⟨members, ⟨hObject, hValues⟩, hDamage⟩ := h
    intro hAccepts
    obtain ⟨hSound, hSpan, hKindText⟩ := of_accepts_node hObject hValues hAccepts
    rcases hDamage with hFaulty | ⟨spanText, hMem, hDamaged⟩ | ⟨kindText, hMem, hDamaged⟩
    · exact hSound hFaulty
    · exact not_accepts_damagedSpan hDamaged (hSpan spanText hMem)
    · exact not_accepts_damagedKind (exact_readerWithin fuel) hKind hDamaged (hKindText kindText hMem)

end damage

/-! ## Whole trees -/

/-- A node is not read if one below it is not. -/
theorem exists_accepted_of_spells {child : Step → Node → List Char → Prop} {node node' : Node} {step : Step}
    {text : List Char} {c : Char} {fuel : List Char} (hLegible : node.Legible)
    (hValues : ∀ step node text, child step node text → IsObjectValue text) (h : node.Spells child text)
    (hStored : (step, node') ∈ node.stored) (hAccepts : (readerWithin (c :: fuel)).Accepts text) :
    ∃ text, child step node' text ∧ (readerWithin fuel).Accepts text := by
  obtain ⟨kind, hKind⟩ := Option.isSome_iff_exists.mp (kind?_of_mem_stored hStored)
  obtain ⟨members, kindText, payloadText, hObject, hMembers, hMem, hKindText, hPayloadValue, hPayload⟩ :=
    exists_members_of_spells hLegible h fun _ _ _ hText => (hValues _ _ _ hText).1
  obtain ⟨-, -, hKindAccepted⟩ := of_accepts_node hObject hMembers hAccepts
  have hReader := exact_readerWithin fuel
  obtain ⟨member, hMember, hContents⟩ := accepts_kindReader hReader hKindText
    (List.forall_mem_singleton.mpr hPayloadValue) (hKindAccepted kindText hMem)
  cases hMember
  have hTag : Kind.ofName? node.tag = some kind := by rw [tag_of_kind hKind, Kind.ofName?_name]
  exact exists_accepted_of_payload hReader hKind hValues hPayload (hContents kind hTag) hStored

theorem not_accepts_around {hole : List Char → Prop} (hHole : ∀ text, hole text → IsObjectValue text)
    (hNot : ∀ text, hole text → ∀ fuel, ¬(readerWithin fuel).Accepts text) {root target : Node} {path : Path}
    (hAt : root.At path target) (hLegible : root.Everywhere Legible) {text : List Char}
    (h : root.SpelledAround hole path text) (fuel : List Char) : ¬(readerWithin fuel).Accepts text := by
  induction hAt generalizing text fuel with
  | here => exact hNot text h fuel
  | @step node child target step path hStored _ ih =>
    cases fuel with
    | nil => exact not_accepts_nil
    | cons c fuel =>
      obtain ⟨hSelf, hBelow⟩ := everywhere_iff.mp hLegible
      -- Of the other children it only matters that their texts are values.
      have hSpells : node.Spells (fun other child text => (other = step → child.SpelledAround hole path text) ∧
          IsObjectValue text) text := Spells.imp h fun other child text hStored _ hText => by
        have hChild := hBelow child (List.mem_map_of_mem hStored)
        split at hText
        · exact ⟨fun _ => hText, isObjectValue_of_around hHole hChild hText⟩
        · exact ⟨fun hSame => absurd hSame ‹_›, isValue_of_spelled hText hChild, hText.head⟩
      intro hAccepts
      obtain ⟨text, ⟨hText, -⟩, hChildAccepts⟩ :=
        exists_accepted_of_spells hSelf (fun _ _ _ hText => hText.2) hSpells hStored hAccepts
      exact ih (hBelow child (List.mem_map_of_mem hStored)) (hText rfl) fuel hChildAccepts

end Node

end Listfile
