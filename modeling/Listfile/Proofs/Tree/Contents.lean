import Listfile.Proofs.Json.Objects
import Listfile.Proofs.Json.Records
import Listfile.Proofs.Tree.Fields
import Listfile.Proofs.Tree.Spelled
import Listfile.Tree.Import
/-! # Records for the contents of nodes

The contents of each kind of node are read by one record, with a member for each field of the node. The reader of the
member takes every text for the field, it takes values as a whole, and it gives no result for a field in which there is
a node that is not read.
-/
namespace Listfile
set_option autoImplicit false

open Json (Reader Record Struct IsObject IsValue)
open Json.Reader

namespace Node

/-! ## What becomes of a tree -/

def receiving : FieldMap where
  payload payload := payload.reread.sorted

/-- A tree with the unknown contents that are read for those of its nodes, whatever the order of their members. -/
def received (node : Node) : Node := node.mapFields receiving

def withPlace (node : Node) (place : Location) : Node :=
  match node with
  | toplevel _ statements => toplevel place statements
  | block _ form header body footer => block place form header body footer
  | conditional _ ifClause elseifs elseClause footer => conditional place ifClause elseifs elseClause footer
  | clause _ form header body => clause place form header body
  | call _ name arguments => call place name arguments
  | inclusion _ filename options => inclusion place filename options
  | word _ type contents => word place type contents
  | unrecognized _ tag payload => unrecognized place tag payload

theorem withPlace_place (node : Node) : node.withPlace node.place = node := by cases node <;> rfl

/-- The texts that a reader takes as a node, apart from its unknown contents. -/
def Taken (reader : Reader Node) (_ : Step) (node : Node) (text : List Char) : Prop :=
  reader.Takes text node.received ∧ ∃ rest, text = '{' :: rest

end Node

open Node (Taken received receiving mapFieldsAll mapFieldsOption)

/-! ## Readers for fields -/

namespace Field

variable {α : Type} {reader : Reader Node} {text : List Char} {slot : Slot}

/-- Whether a reader of nodes gives results for the nodes in a field. -/
def Accepted (reader : Reader Node) : Field → List Char → Prop
  | data .., _ => True
  | one .., text => reader.Accepts text
  | many .., text => (Reader.list reader).Accepts text
  | optional .., text => (Reader.optional reader).Accepts text

/-- Whether a reader, with the given value for an absent member, is one for a field, and reads the given value there. -/
structure ReadBy (reader : Reader Node) (field : Field) (value : Reader α) (absent : Option α) (x : α) : Prop where
  takes : ∀ text, field.Spelled (Taken reader) text → value.Takes text x
  exact : reader.Exact → value.Exact
  accepted : ∀ text, value.Accepts text → field.Accepted reader text
  required : absent.isSome = !field.required
  absent : ∀ slot, field = optional slot none → absent = some x

theorem ReadBy.string (name value : String) : ReadBy reader (data name (.string value)) Reader.string none value where
  takes text h := by
    rw [Spelled, Json.Spelled] at h
    exact takes_string h
  exact _ := exact_string
  accepted _ _ := trivial
  required := rfl
  absent := nofun

theorem ReadBy.type (name : String) (type : WordType) :
    ReadBy reader (data name (.string type.name)) WordType.reader none type where
  takes text h := by
    rw [Spelled, Json.Spelled] at h
    exact takes_variant h (by cases type <;> rfl)
  exact _ := exact_variant
  accepted _ _ := trivial
  required := rfl
  absent := nofun

theorem takes_strings {strings : List String} {texts : List (List Char)}
    (h : Json.SpelledElements (strings.map .string) texts) : List.Forall₂ Reader.string.Takes texts strings := by
  induction strings generalizing texts with
  | nil =>
    rw [List.map_nil, Json.SpelledElements] at h
    rw [h]
    exact .nil
  | cons first rest ih =>
    rw [List.map_cons, Json.SpelledElements] at h
    obtain ⟨text, others, rfl, hText, hOthers⟩ := h
    rw [Json.Spelled] at hText
    exact .cons (takes_string hText) (ih hOthers)

theorem ReadBy.strings (name : String) (strings : List String) :
    ReadBy reader (data name (.array (strings.map .string))) (Reader.list Reader.string) none strings where
  takes text h := by
    rw [Spelled, Json.Spelled] at h
    obtain ⟨texts, inner, rfl, hElements, hTexts⟩ := h
    exact takes_list hElements (takes_strings hTexts)
  exact _ := exact_string.list
  accepted _ _ := trivial
  required := rfl
  absent := nofun

theorem ReadBy.one (slot : Slot) (child : Node) : ReadBy reader (one slot child) reader none child.received where
  takes _ h := h.1
  exact h := h
  accepted _ h := h
  required := rfl
  absent := nofun

theorem ReadBy.many (slot : Slot) (children : List Node) :
    ReadBy reader (many slot children) (Reader.list reader) none (mapFieldsAll receiving children) where
  takes text h := by
    obtain ⟨texts, inner, rfl, hElements, hTexts⟩ := h
    refine takes_list hElements ?_
    rw [Node.mapFieldsAll_eq, ← Node.map_snd_enumerateFrom slot 0 children, List.map_map, List.forall₂_map_right_iff]
    exact (hTexts.imp fun _ _ hTaken => hTaken.1).flip
  exact h := h.list
  accepted _ h := h
  required := rfl
  absent := nofun

theorem ReadBy.optional (slot : Slot) (child : Option Node) :
    ReadBy reader (optional slot child) (Reader.optional reader) (some none) (mapFieldsOption receiving child) where
  takes text h := by
    cases child with
    | none =>
      rw [Spelled] at h
      rw [h]
      exact takes_optional_none reader
    | some child =>
      obtain ⟨hTakes, rest, rfl⟩ := h
      exact takes_optional_some hTakes
  exact h := h.optional
  accepted _ h := h
  required := rfl
  absent _ h := by
    cases h
    rfl

end Field

/-! ## Records for nodes -/

namespace Node

/-- Whether the members of a record are those for the given fields, in order. -/
def ReadAs (reader : Reader Node) {τ : Type} : Record τ → List Field → τ → Prop
  | .done, [], _ => True
  | .member name value absent rest, field :: fields, (x, xs) =>
    name = field.name ∧ field.ReadBy reader value absent x ∧ ReadAs reader rest fields xs
  | _, _, _ => False

section readAs

variable {reader : Reader Node} {τ : Type} {record : Record τ} {fields : List Field} {x : τ}
  {members : List (String × List Char)} {text : List Char}

theorem ReadAs.names (h : ReadAs reader record fields x) : record.names = fields.map Field.name := by
  induction record generalizing fields with
  | done =>
    cases fields with
    | nil => rfl
    | cons => cases h
  | member name value absent rest ih =>
    cases fields with
    | nil => cases h
    | cons field fields =>
      obtain ⟨rfl, -, hRest⟩ := h
      rw [Record.names, ih hRest, List.map_cons]

theorem ReadAs.required (h : ReadAs reader record fields x) :
    record.required = (fields.filter Field.required).map Field.name := by
  induction record generalizing fields with
  | done =>
    cases fields with
    | nil => rfl
    | cons => cases h
  | member name value absent rest ih =>
    cases fields with
    | nil => cases h
    | cons field fields =>
      obtain ⟨rfl, hField, hRest⟩ := h
      rw [Record.required, ih hRest, hField.required, List.filter_cons]
      cases field.required <;> rfl

theorem ReadAs.allExact (h : ReadAs reader record fields x) (hReader : reader.Exact) : record.AllExact := by
  induction record generalizing fields with
  | done => trivial
  | member name value absent rest ih =>
    cases fields with
    | nil => cases h
    | cons field fields =>
      obtain ⟨-, hField, hRest⟩ := h
      exact ⟨hField.exact hReader, ih hRest⟩

theorem ReadAs.refuses (h : ReadAs reader record fields x) {field : Field} (hField : field ∈ fields)
    (hNot : ¬field.Accepted reader text) : record.Refuses field.name text := by
  induction record generalizing fields with
  | done =>
    cases fields with
    | nil => cases hField
    | cons => cases h
  | member name value absent rest ih =>
    cases fields with
    | nil => cases h
    | cons first fields =>
      obtain ⟨rfl, hFirst, hRest⟩ := h
      rcases List.mem_cons.mp hField with rfl | hField
      · exact .inl ⟨rfl, fun hAccepts => hNot (hFirst.accepted text hAccepts)⟩
      · exact .inr (ih hRest hField)

theorem ReadAs.holds (h : ReadAs reader record fields x) (hNames : (fields.map Field.name).Nodup)
    (hMembers : Field.AllSpelled (Taken reader) fields members) : record.Holds @Takes x members := by
  induction hMembers generalizing τ with
  | nil =>
    cases record with
    | done => trivial
    | member => cases h
  | cons hText hRest ih =>
    obtain ⟨hNew, hOthers⟩ := List.nodup_cons.mp hNames
    cases record with
    | done => cases h
    | member name value absent rest =>
      obtain ⟨rfl, hField, hReadAs⟩ := h
      exact Record.holds_cons (hField.takes _ hText) (hRest.not_mem_names hNew) (ih hReadAs hOthers)
  | absent hRest ih =>
    obtain ⟨hNew, hOthers⟩ := List.nodup_cons.mp hNames
    cases record with
    | done => cases h
    | member name value absent rest =>
      obtain ⟨rfl, hField, hReadAs⟩ := h
      cases hField.absent _ rfl
      exact Record.holds_absent (hRest.not_mem_names hNew) (ih hReadAs hOthers)

theorem ReadAs.takes (h : ReadAs reader record fields x) (hNames : (fields.map Field.name).Nodup)
    (hMembers : Field.AllSpelled (Taken reader) fields members) (hText : Struct (fields.map Field.name) members text)
    (name : String) : (record.read name).Takes text x := by
  rw [← h.names] at hText
  refine Record.takes_struct name hText (fun member hMember => ?_) (h.holds hNames hMembers)
  obtain ⟨field, hField, hName, -⟩ := hMembers.exists_field member hMember
  rw [h.names]
  exact List.mem_map.mpr ⟨field, hField, hName⟩

end readAs

/-- The contents of a node of known kind are read by a record for its fields. -/
theorem exists_record (reader : Reader Node) {node : Node} {kind : Kind} (hKind : node.kind? = some kind) :
    ∃ (τ : Type) (record : Record τ) (x : τ) (finish : τ → Location → Node) (name : String),
      payloadReader reader kind = (do return finish (← record.read name)) ∧ finish x = node.received.withPlace ∧
        ReadAs reader record node.fields x := by
  cases node with
  | toplevel place statements =>
    cases hKind
    refine ⟨_, _, (mapFieldsAll receiving statements, ()), _, _, rfl, rfl, ?_⟩
    exact ⟨rfl, .many _ _, trivial⟩
  | block place form header body footer =>
    cases form <;>
    · cases hKind
      refine ⟨_, _, (header.received, mapFieldsAll receiving body, footer.received, ()), _, _, rfl, rfl, ?_⟩
      exact ⟨rfl, .one _ _, rfl, .many _ _, rfl, .one _ _, trivial⟩
  | conditional place ifClause elseifs elseClause footer =>
    cases hKind
    refine ⟨_, _, (ifClause.received, mapFieldsAll receiving elseifs, mapFieldsOption receiving elseClause,
      footer.received, ()), _, _, rfl, rfl, ?_⟩
    exact ⟨rfl, .one _ _, rfl, .many _ _, rfl, .optional _ _, rfl, .one _ _, trivial⟩
  | clause place form header body =>
    cases form <;>
    · cases hKind
      refine ⟨_, _, (header.received, mapFieldsAll receiving body, ()), _, _, rfl, rfl, ?_⟩
      exact ⟨rfl, .one _ _, rfl, .many _ _, trivial⟩
  | call place name arguments =>
    cases hKind
    refine ⟨_, _, (name, mapFieldsAll receiving arguments, ()), _, _, rfl, rfl, ?_⟩
    exact ⟨rfl, .string _ _, rfl, .many _ _, trivial⟩
  | inclusion place filename options =>
    cases hKind
    refine ⟨_, _, (filename, options, ()), _, _, rfl, rfl, ?_⟩
    exact ⟨rfl, .string _ _, rfl, .strings _ _, trivial⟩
  | word place type contents =>
    cases hKind
    refine ⟨_, _, (type, contents, ()), _, _, rfl, rfl, ?_⟩
    exact ⟨rfl, .type _ _, rfl, .string _ _, trivial⟩
  | unrecognized => cases hKind

end Node

end Listfile
