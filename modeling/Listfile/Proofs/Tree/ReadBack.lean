import Mathlib.Data.List.TakeWhile
import Listfile.Proofs.Tree.Contents
/-! # Reading back trees

Each text for a tree is read as that tree, except that doubles within unknown contents may become others, and that the
objects there become sorted; and what is written for a tree, in either layout, is a text for it. The numbers of every
place must fit, an unknown node must not have the tag of a known kind, and the contents that came with it must
themselves be read.
-/
namespace Listfile
set_option autoImplicit false

open Json (Layout Reader Record Struct IsObject)
open Json.Reader

/-- Whether all numbers of a place are below `2 ^ 64`. -/
def Location.Fits (place : Location) : Prop :=
  Json.Fits place.span.start ∧ Json.Fits place.span.stop ∧ Json.Fits place.position.line ∧
    Json.Fits place.position.column

theorem Span.takes_reader {span : Span} (hStart : Json.Fits span.start) (hStop : Json.Fits span.stop) {text : List Char}
    (hText : Struct Span.memberNames span.spelledMembers text) : Span.reader.Takes text span := by
  refine Takes.bind (x := (span.start, span.stop, ())) ?_ fun _ _ => rfl
  refine Record.takes_struct "Span" hText (by simp [spelledMembers, Record.names]) ?_
  refine Record.holds_cons (Reader.takes_natural hStart) (by simp) ?_
  exact Record.holds_cons (Reader.takes_natural hStop) (by simp) trivial

namespace Node

/-- Whether a node that came with unknown contents stays unknown, its contents are read, and all numbers of its place
fit. -/
def Sound : Node → Prop
  | unrecognized place tag payload =>
    place.Fits ∧ Kind.ofName? tag = none ∧ payload.Everywhere fun value => value.Writable ∧ value.Ordered
  | node => node.place.Fits

/-- Whether the object that is written for a node is read at all. Objects in unknown contents may have their members in
any order. -/
def Legible : Node → Prop
  | unrecognized place tag payload => place.Fits ∧ Kind.ofName? tag = none ∧ payload.Everywhere Json.Writable
  | node => node.place.Fits

theorem Sound.legible {node : Node} (h : node.Sound) : node.Legible := by
  cases node with
  | unrecognized =>
    obtain ⟨hFits, hUnknown, hPayload⟩ := h
    exact ⟨hFits, hUnknown, fun inner hInner => (hPayload inner hInner).1⟩
  | _ => exact h

/-- A tree with the unknown contents that are read for those of its nodes. -/
def rereading : FieldMap where
  payload := Json.reread

def reread (node : Node) : Node := node.mapFields rereading

theorem Legible.fits {node : Node} (h : node.Legible) : node.place.Fits := by
  cases node with
  | unrecognized => exact h.1
  | _ => exact h

/-! ## Whole trees -/

section whole

variable {reader : Reader Node} {node : Node} {text : List Char}

theorem takes_payload {kind : Kind} (hKind : node.kind? = some kind) (h : node.SpellsPayload (Taken reader) text) :
    (payloadReader reader kind).Takes text node.received.withPlace := by
  obtain ⟨members, hMembers, hText⟩ := (spellsPayload_iff hKind).mp h
  obtain ⟨τ, record, x, finish, name, hReader, hFinish, hReadAs⟩ := exists_record reader hKind
  rw [hReader, ← hFinish]
  exact (hReadAs.takes node.nodup_fields hMembers hText name).bind fun _ _ => rfl

/-- Which reader is chosen by the tag of a node, and that it takes what the node consists of. -/
theorem takes_contents (hLegible : node.Legible) (h : node.SpellsPayload (Taken reader) text) :
    (∃ kind, Kind.ofName? node.tag = some kind ∧ (payloadReader reader kind).Takes text node.received.withPlace) ∨
      (Kind.ofName? node.tag = none ∧ ∃ payload, Reader.value.Takes text payload ∧
        node.received.withPlace = fun place => .unrecognized place node.tag payload) := by
  cases hKind : node.kind? with
  | some kind => exact .inl ⟨kind, by rw [tag_of_kind hKind, Kind.ofName?_name], takes_payload hKind h⟩
  | none =>
    cases node with
    | unrecognized place tag payload =>
      obtain ⟨-, hUnknown, hPayload⟩ := hLegible
      exact .inr ⟨hUnknown, _, takes_value hPayload h, rfl⟩
    | _ => cases hKind

theorem takes_kind (hLegible : node.Legible) {payloadText : List Char}
    (hPayload : node.SpellsPayload (Taken reader) payloadText) (hText : IsObject [(node.tag, payloadText)] text) :
    (kindReader reader).Takes text node.received.withPlace := by
  obtain ⟨inner, rfl, hMembers⟩ := hText
  intro room blanks rest hBlanks hRoom _
  simp only [List.length_cons, List.length_append, List.length_nil] at hRoom
  simp only [List.cons_append, List.append_assoc, List.nil_append]
  refine (bind_ok (peek_ok hBlanks (by decide))).trans ?_
  refine (@bind_ok _ _ _ _ ('}' :: rest) _ _ node.received.withPlace ?_).trans ?_
  · refine nested_ok (by omega) ((bind_ok rfl).trans ?_)
    cases hMembers with
    | cons hBefore hAfter hBeforeColon hAfterColon hName hRest =>
    have hDelimited := hRest.delimited rest
    cases hRest with
    | nil hOthers =>
      simp only [List.length_cons, List.length_append] at hRoom
      simp only [List.cons_append, List.append_assoc]
      refine (bind_ok (hasMember_cons hBefore hAfter)).trans ?_
      simp only [if_true]
      refine (bind_ok (stringBody_ok hName)).trans ?_
      refine (bind_ok (colon_ok hBeforeColon)).trans ?_
      -- The reader of the contents is chosen by the tag, and both choices end with the closing brace.
      rcases takes_contents hLegible hPayload with ⟨kind, hTag, hContents⟩ | ⟨hTag, payload, hContents, hPlace⟩
      · simp only [hTag]
        refine (bind_ok (hContents (room - 1) _ _ hAfterColon (by omega) hDelimited)).trans ?_
        exact (bind_ok (hasMember_nil hOthers)).trans rfl
      · simp only [hTag]
        refine (bind_ok (hContents (room - 1) _ _ hAfterColon (by omega) hDelimited)).trans ?_
        rw [hPlace]
        refine (bind_ok rfl).trans ?_
        exact (bind_ok (hasMember_nil hOthers)).trans rfl
  · exact (bind_ok (endObject_ok Json.blank_nil)).trans rfl

theorem takes_of_spells {c : Char} {fuel : List Char} (hLegible : node.Legible)
    (h : node.Spells (Taken (readerWithin fuel)) text) : (readerWithin (c :: fuel)).Takes text node.received := by
  obtain ⟨kindText, spanText, payloadText, hText, hSpanText, hKindText, hPayload⟩ := h
  obtain ⟨hStart, hStop, hLine, hColumn⟩ := hLegible.fits
  have hKind := takes_kind hLegible hPayload hKindText
  have hSpan := Span.takes_reader hStart hStop hSpanText
  rw [readerWithin]
  refine Takes.bind
    (x := (node.received.withPlace, node.span, node.place.position.line, node.place.position.column, ())) ?_ ?_
  · refine Record.takes_struct "Node" hText (by simp [spelledMembers, Record.names]) ?_
    refine Record.holds_cons hKind (by simp) ?_
    refine Record.holds_cons hSpan (by simp) ?_
    refine Record.holds_cons (Reader.takes_natural hLine) (by simp) ?_
    exact Record.holds_cons (Reader.takes_natural hColumn) (by simp) trivial
  · intro room rest
    have hPlace : node.received.withPlace node.place = node.received := by
      have hSame : node.received.place = node.place := place_mapFields receiving node
      rw [← hSame, withPlace_place]
    exact congrArg (fun node => Except.ok (node, rest)) hPlace

end whole

theorem Spelled.head {node : Node} {text : List Char} (h : node.Spelled text) : ∃ rest, text = '{' :: rest := by
  cases h with
  | intro h => exact h.head

/-- All nodes below one are written in fewer characters than it, so the rest of the fuel is long enough for them. -/
theorem takes_of_spelled {root : Node} {text : List Char} (h : root.Spelled text) (hLegible : root.Everywhere Legible)
    (fuel : List Char) (hFuel : text.length < fuel.length) : (readerWithin fuel).Takes text root.received := by
  induction h generalizing fuel with
  | intro h hSpelled ih =>
    cases fuel with
    | nil => cases hFuel
    | cons c fuel =>
      obtain ⟨hSelf, hBelow⟩ := everywhere_iff.mp hLegible
      refine takes_of_spells hSelf (h.imp fun step child text' hStored hLength hText => ⟨?_, ?_⟩)
      · rw [List.length_cons] at hFuel
        exact ih step child text' hText (hBelow child (List.mem_map_of_mem hStored)) fuel (by omega)
      · exact (hSpelled step child text' hText).head

/-- Whether a text is one of the given texts, with blanks before and after it. -/
def Padded (spelled : List Char → Prop) (text : String) : Prop :=
  ∃ before inner after, text.toList = before ++ (inner ++ after) ∧ Json.Blank before ∧ Json.Blank after ∧ spelled inner

theorem takes_reader {root : Node} {text : List Char} (h : root.Spelled text) (hLegible : root.Everywhere Legible) :
    reader.Takes text root.received := by
  intro room blanks rest hBlanks hRoom hRest
  refine (bind_ok measure_ok).trans ?_
  refine takes_of_spelled h hLegible _ ?_ room blanks rest hBlanks hRoom hRest
  simp only [List.length_cons, List.length_append]
  omega

/-- Each text for a tree is read as that tree but for unknown contents. -/
theorem ofJson_of_spelled {root : Node} (hLegible : root.Everywhere Legible) {text : String}
    (h : Padded root.Spelled text) : ofJson text = .ok root.received := by
  obtain ⟨before, inner, after, hText, hBefore, hAfter, hSpelled⟩ := h
  have hLength : inner.length ≤ text.length := by
    rw [← String.length_toList, hText]
    simp only [List.length_append]
    omega
  exact run_of_takes (takes_reader hSpelled hLegible) hBefore hAfter hText hLength

/-! ## What is written for a tree -/

def fieldJson : Field → Json
  | .data _ value => value
  | .one _ child => child.toJson
  | .many _ children => .array (elements children)
  | .optional _ child => orNull child

theorem payload_eq_fields {node : Node} {kind : Kind} (hKind : node.kind? = some kind) :
    node.payload = .object (node.fields.map fun field => (field.name, fieldJson field)) := by
  cases node with
  | unrecognized => cases hKind
  | _ => rfl

theorem elements_eq_map (nodes : List Node) : elements nodes = nodes.map toJson := by
  induction nodes with
  | nil => rfl
  | cons node rest ih => rw [elements, ih]; rfl

theorem writable_of_data {node : Node} {name : String} {value : Json} (h : .data name value ∈ node.fields) :
    value.Everywhere Json.Writable := by
  have hString (s : String) : (Json.string s).Everywhere Json.Writable := by
    intro inner hInner
    cases hInner
    trivial
  have hStrings (strings : List String) : (Json.array (strings.map .string)).Everywhere Json.Writable := by
    refine Json.everywhere_array trivial fun element hElement => ?_
    obtain ⟨s, -, rfl⟩ := List.mem_map.mp hElement
    exact hString s
  cases node <;> simp only [fields, List.mem_cons, List.not_mem_nil, reduceCtorEq, Field.data.injEq, or_false] at h
  · obtain ⟨-, rfl⟩ := h
    exact hString _
  · obtain ⟨-, rfl⟩ | ⟨-, rfl⟩ := h
    · exact hString _
    · exact hStrings _
  · obtain ⟨-, rfl⟩ | ⟨-, rfl⟩ := h <;> exact hString _

variable (layout : Layout)

/-- What is written for the nodes below one, at any depth. -/
def Written (root : Node) (step : Step) (node : Node) (text : List Char) : Prop :=
  (step, node) ∈ root.stored ∧ ∃ depth, text = node.toJson.written layout depth

theorem spelled_fieldJson {root : Node} {field : Field} (hField : field ∈ root.fields) (depth : Nat) :
    field.Spelled (Written layout root) ((fieldJson field).written layout depth) := by
  have hStored {edge : Step × Node} (h : edge ∈ field.stored) : edge ∈ root.stored := mem_stored_of_field hField h
  cases field with
  | data => exact Json.spelled_written layout _ (writable_of_data hField) depth
  | one slot child => exact ⟨hStored List.mem_cons_self, depth, rfl⟩
  | optional slot child =>
    cases child with
    | none => exact Json.spelled_written layout .null (fun inner hInner => by cases hInner; trivial) depth
    | some child => exact ⟨hStored List.mem_cons_self, depth, rfl⟩
  | many slot children =>
    have hAnnounces : ∀ element ∈ elements children, Json.Announces (element.written layout (depth + 1)) := by
      rw [elements_eq_map]
      intro element hElement
      obtain ⟨node, -, rfl⟩ := List.mem_map.mp hElement
      exact Json.announces_written layout (depth + 1) trivial
    obtain ⟨inner, hText, hElements⟩ := Json.written_array layout depth hAnnounces
    refine ⟨_, inner, hText, hElements, ?_⟩
    have hEdges : ∀ edge ∈ enumerateFrom slot 0 children, edge ∈ root.stored := fun _ hEdge => hStored hEdge
    have hChildren := map_snd_enumerateFrom slot 0 children
    generalize enumerateFrom slot 0 children = edges at *
    rw [elements_eq_map, ← hChildren, List.map_map, List.map_map, List.forall₂_map_right_iff]
    exact List.forall₂_same.mpr fun edge hEdge => ⟨hEdges edge hEdge, depth + 1, rfl⟩

theorem allSpelled_written {root : Node} {fields : List Field} (hFields : ∀ field ∈ fields, field ∈ root.fields)
    (depth : Nat) : Field.AllSpelled (Written layout root) fields
      (Json.writtenMembers layout depth (fields.map fun field => (field.name, fieldJson field))) := by
  induction fields with
  | nil => exact .nil
  | cons field rest ih =>
    obtain ⟨hField, hRest⟩ := List.forall_mem_cons.mp hFields
    exact .cons (spelled_fieldJson layout hField depth) (ih hRest)

theorem struct_written (names : List String) (depth : Nat) (members : List (String × Json)) :
    Struct names (Json.writtenMembers layout (depth + 1) members) (Json.written layout depth (.object members)) :=
  ⟨[], _, Json.written_object layout depth members, by rw [List.append_nil], List.forall_mem_nil _⟩

theorem spells_written {node : Node} (h : node.Legible) (depth : Nat) :
    node.Spells (Written layout node) (node.toJson.written layout depth) := by
  refine ⟨(node.tagged node.payload).written layout (depth + 1), node.span.toJson.written layout (depth + 1),
    node.payload.written layout (depth + 1 + 1), ?_, ?_, ?_, ?_⟩
  · have hText := struct_written layout memberNames depth [("kind", node.tagged node.payload),
      ("span", node.span.toJson), ("line", .ofNat node.place.position.line), ("col", .ofNat node.place.position.column)]
    simp only [Json.writtenMembers, List.map_cons, List.map_nil, Json.written_ofNat] at hText
    exact hText
  · have hText := struct_written layout Span.memberNames (depth + 1)
      [("start", .ofNat node.span.start), ("end", .ofNat node.span.stop)]
    simp only [Json.writtenMembers, List.map_cons, List.map_nil, Json.written_ofNat] at hText
    exact hText
  · exact Json.written_object layout (depth + 1) [(node.tag, node.payload)]
  · cases hKind : node.kind? with
    | none =>
      cases node with
      | unrecognized => exact Json.spelled_written layout _ h.2.2 (depth + 1 + 1)
      | _ => cases hKind
    | some kind =>
      have hFields := allSpelled_written layout (fun field (hField : field ∈ node.fields) => hField) (depth + 1 + 1 + 1)
      refine (spellsPayload_iff hKind).mpr ⟨_, hFields, ?_⟩
      rw [payload_eq_fields hKind]
      exact struct_written layout _ (depth + 1 + 1) _

/-- What is written for a tree is a text for it. -/
theorem spelled_written (root : Node) (h : root.Everywhere Legible) (depth : Nat) :
    root.Spelled (root.toJson.written layout depth) := by
  obtain ⟨hSelf, hBelow⟩ := everywhere_iff.mp h
  refine .intro (spells_written layout hSelf depth) ?_
  rintro step child _ ⟨hStored, depth', rfl⟩
  have hSmaller : child.size < root.size := size_lt_of_mem_stored hStored
  exact spelled_written child (hBelow child (List.mem_map_of_mem hStored)) depth'
termination_by root.size

/-- What is written for a tree is read as that tree, also with blanks after it, but for unknown contents. -/
theorem ofJson_render_append_of_legible {root : Node} (h : root.Everywhere Legible) {blanks : String}
    (hBlanks : Json.Blank blanks.toList) : ofJson (root.render layout ++ blanks) = .ok root.received := by
  have hText : (root.render layout ++ blanks).toList = [] ++ (root.toJson.written layout 0 ++ blanks.toList) := by
    rw [String.toList_append]
    exact congrArg (· ++ blanks.toList) String.toList_ofList
  exact ofJson_of_spelled h ⟨[], _, _, hText, Json.blank_nil, hBlanks, spelled_written layout root h 0⟩


/-! ## Unknown contents -/

theorem received_of_sound {root : Node} (h : root.Everywhere Sound) : root.received = root.reread := by
  refine mapFields_congr root (h.imp fun node hNode => ?_)
  cases node with
  | unrecognized =>
    obtain ⟨-, -, hPayload⟩ := hNode
    exact Json.sorted_reread _ fun inner hInner => (hPayload inner hInner).2
  | _ => trivial

/-- What is written for a tree is read as that tree, also with blanks after it, but for doubles in unknown contents. -/
theorem ofJson_render_append_of_sound {root : Node} (h : root.Everywhere Sound) {blanks : String}
    (hBlanks : Json.Blank blanks.toList) : ofJson (root.render layout ++ blanks) = .ok root.reread := by
  rw [ofJson_render_append_of_legible layout (h.imp fun _ => Sound.legible) hBlanks, received_of_sound h]

/-! ## Plain contents -/

/-- Whether unknown contents have no numbers other than integers from `-2 ^ 63` to `2 ^ 64 - 1`. -/
def PlainPayload : Node → Prop
  | unrecognized _ _ payload => payload.Everywhere Json.Plain
  | _ => True

/-- Whether the node itself, apart from those it stores, reads back. -/
def Readable (node : Node) : Prop := node.Sound ∧ node.PlainPayload

/-- Nothing is changed by reading where all numbers are integers. -/
theorem reread_of_plain {root : Node} (h : root.Everywhere PlainPayload) : root.reread = root := by
  refine (mapFields_congr root (h.imp fun node hNode => ?_)).trans (mapFields_id root)
  cases node with
  | unrecognized => exact Json.reread_of_plain _ hNode
  | _ => trivial

theorem received_of_readable {root : Node} (h : root.Everywhere Readable) : root.received = root := by
  rw [received_of_sound (h.imp fun _ hNode => hNode.1), reread_of_plain (h.imp fun _ hNode => hNode.2)]

theorem ofJson_render_append {root : Node} (h : root.Everywhere Readable) {blanks : String}
    (hBlanks : Json.Blank blanks.toList) : ofJson (root.render layout ++ blanks) = .ok root := by
  rw [ofJson_render_append_of_legible layout (h.imp fun _ hNode => hNode.1.legible) hBlanks, received_of_readable h]

theorem ofJson_render {root : Node} (h : root.Everywhere Readable) : ofJson (root.render layout) = .ok root := by
  simpa using ofJson_render_append layout h Json.blank_empty

end Node
end Listfile
