import Listfile.Proofs.Json.Objects
import Listfile.Proofs.Json.Written
import Listfile.Proofs.Related
import Listfile.Proofs.Tree.Replacement
import Listfile.Tree.Export
/-! # The texts for a tree

What is written for a tree is one of many texts for it. The members of the objects for nodes, spans and contents may
come in any order, and others may stand between them; a missing arm need not be mentioned; and blanks may stand wherever
a text of a value has them. Only the object with the tag has no other members. In such a text, the part for a node deep
in the tree may be any text at all.
-/
namespace Listfile
set_option autoImplicit false

open Json (Struct IsObject IsValue)

/-- A member of the object for what a node of known kind consists of. -/
inductive Field where
  | data (name : String) (value : Json)
  | one (slot : Slot) (child : Node)
  | many (slot : Slot) (children : List Node)
  | optional (slot : Slot) (child : Option Node)

namespace Field

def name : Field → String
  | data name _ => name
  | one slot _ | many slot _ | optional slot _ => slot.name

def required : Field → Bool
  | optional .. => false
  | _ => true

def stored : Field → List (Step × Node)
  | data .. => []
  | one slot child => Node.enumerateFrom slot 0 [child]
  | many slot children => Node.enumerateFrom slot 0 children
  | optional slot child => Node.enumerateFrom slot 0 child.toList

section spelled

variable (child : Step → Node → List Char → Prop)

/-- Whether a text is one for a member, given the texts for the nodes below it. -/
def Spelled : Field → List Char → Prop
  | data _ value, text => value.Spelled text
  | one slot node, text => child ⟨slot, 0⟩ node text
  | many slot nodes, text => ∃ texts inner, text = '[' :: (inner ++ [']']) ∧ Json.Elements true texts inner ∧
    List.Forall₂ (fun edge => child edge.1 edge.2) (Node.enumerateFrom slot 0 nodes) texts
  | optional _ none, text => text = ['n', 'u', 'l', 'l']
  | optional slot (some node), text => child ⟨slot, 0⟩ node text

/-- The members that are there, with their texts. One that has nothing to say may be missing. -/
inductive AllSpelled : List Field → List (String × List Char) → Prop
  | nil : AllSpelled [] []
  | cons {field : Field} {text : List Char} {fields : List Field} {members : List (String × List Char)}
    (hText : field.Spelled child text) (hRest : AllSpelled fields members) :
    AllSpelled (field :: fields) ((field.name, text) :: members)
  | absent {slot : Slot} {fields : List Field} {members : List (String × List Char)}
    (hRest : AllSpelled fields members) : AllSpelled (optional slot none :: fields) members

end spelled

variable {child child' : Step → Node → List Char → Prop} {field : Field} {fields : List Field} {text : List Char}
  {members : List (String × List Char)}

theorem Spelled.imp (h : field.Spelled child text) (hImp : ∀ step node text', (step, node) ∈ field.stored →
    text'.length ≤ text.length → child step node text' → child' step node text') : field.Spelled child' text := by
  cases field with
  | data => exact h
  | one slot node => exact hImp _ _ _ List.mem_cons_self (Nat.le_refl _) h
  | optional slot node =>
    cases node with
    | none => exact h
    | some node => exact hImp _ _ _ List.mem_cons_self (Nat.le_refl _) h
  | many slot nodes =>
    obtain ⟨texts, inner, rfl, hElements, hTexts⟩ := h
    refine ⟨texts, inner, rfl, hElements, forall₂_imp_of_mem hTexts fun edge hEdge text hText => ?_⟩
    have hLength := hElements.length_le_of_mem hText
    refine hImp _ _ _ hEdge ?_
    rw [List.length_cons, List.length_append]
    omega

theorem AllSpelled.imp (h : AllSpelled child fields members) (hImp : ∀ field ∈ fields, ∀ text ∈ members.map Prod.snd,
    field.Spelled child text → field.Spelled child' text) : AllSpelled child' fields members := by
  induction h with
  | nil => exact .nil
  | cons hText hRest ih =>
    refine .cons (hImp _ List.mem_cons_self _ List.mem_cons_self hText) (ih fun field hField text hText => ?_)
    exact hImp field (List.mem_cons_of_mem _ hField) text (List.mem_cons_of_mem _ hText)
  | absent _ ih => exact .absent (ih fun field hField => hImp field (List.mem_cons_of_mem _ hField))

theorem AllSpelled.exists_field (h : AllSpelled child fields members) :
    ∀ member ∈ members, ∃ field ∈ fields, field.name = member.1 ∧ field.Spelled child member.2 := by
  induction h with
  | nil => exact List.forall_mem_nil _
  | cons hText _ ih =>
    refine List.forall_mem_cons.mpr ⟨⟨_, List.mem_cons_self, rfl, hText⟩, fun member hMember => ?_⟩
    obtain ⟨field, hField, hSpelled⟩ := ih member hMember
    exact ⟨field, List.mem_cons_of_mem _ hField, hSpelled⟩
  | absent _ ih =>
    intro member hMember
    obtain ⟨field, hField, hSpelled⟩ := ih member hMember
    exact ⟨field, List.mem_cons_of_mem _ hField, hSpelled⟩

theorem AllSpelled.exists_member (h : AllSpelled child fields members) (hField : field ∈ fields)
    (hStored : field.stored ≠ []) : ∃ text, (field.name, text) ∈ members ∧ field.Spelled child text := by
  induction h with
  | nil => cases hField
  | cons hText _ ih =>
    rcases List.mem_cons.mp hField with rfl | hField
    · exact ⟨_, List.mem_cons_self, hText⟩
    · obtain ⟨text, hMember, hSpelled⟩ := ih hField
      exact ⟨text, List.mem_cons_of_mem _ hMember, hSpelled⟩
  | absent _ ih =>
    rcases List.mem_cons.mp hField with rfl | hField
    · exact absurd rfl hStored
    · exact ih hField

theorem AllSpelled.not_mem_names (h : AllSpelled child fields members) {name : String}
    (hNew : name ∉ fields.map Field.name) : name ∉ members.map Prod.fst := by
  intro hMem
  obtain ⟨member, hMember, rfl⟩ := List.mem_map.mp hMem
  obtain ⟨field, hField, hName, -⟩ := h.exists_field member hMember
  exact hNew (List.mem_map.mpr ⟨field, hField, hName⟩)

end Field

def Span.memberNames : List String := ["start", "end"]

/-- The members of the object for a span, with their texts. -/
def Span.spelledMembers (span : Span) : List (String × List Char) :=
  [("start", Nat.toDigits 10 span.start), ("end", Nat.toDigits 10 span.stop)]

namespace Node

/-- What a node consists of. -/
def fields : Node → List Field
  | toplevel _ statements => [.many .statements statements]
  | block _ _ header body footer => [.one .header header, .many .body body, .one .footer footer]
  | conditional _ ifClause elseifs elseClause footer =>
    [.one .ifClause ifClause, .many .elseifClauses elseifs, .optional .elseClause elseClause, .one .footer footer]
  | clause _ _ header body => [.one .header header, .many .body body]
  | call _ name arguments => [.data "name" (.string name), .many .arguments arguments]
  | inclusion _ filename options =>
    [.data "filename" (.string filename), .data "options" (.array (options.map .string))]
  | word _ type contents => [.data "word_type" (.string type.name), .data "contents" (.string contents)]
  | unrecognized .. => []

theorem stored_eq_fields (node : Node) : node.stored = node.fields.flatMap Field.stored := by
  cases node <;> simp [stored, fields, Field.stored]

theorem nodup_fields (node : Node) : (node.fields.map Field.name).Nodup := by
  cases node <;> simp [fields, Field.name, Slot.name]

theorem mem_stored_of_field {node child : Node} {field : Field} {step : Step} (hField : field ∈ node.fields)
    (h : (step, child) ∈ field.stored) : (step, child) ∈ node.stored := by
  rw [stored_eq_fields]
  exact List.mem_flatMap.mpr ⟨field, hField, h⟩

/-! ## Texts for one node -/

def memberNames : List String := ["kind", "span", "line", "col"]

/-- The members of the object for a node, with their texts, of which two are given. -/
def spelledMembers (node : Node) (kindText spanText : List Char) : List (String × List Char) :=
  [("kind", kindText), ("span", spanText), ("line", Nat.toDigits 10 node.place.position.line),
    ("col", Nat.toDigits 10 node.place.position.column)]

section spells

variable (child : Step → Node → List Char → Prop)

/-- Whether a text is one for what a node consists of, given the texts for the nodes below it. -/
def SpellsPayload : Node → List Char → Prop
  | unrecognized _ _ payload, text => payload.Spelled text
  | node, text =>
    ∃ members, Field.AllSpelled child node.fields members ∧ Struct (node.fields.map Field.name) members text

/-- Whether a text is one for a node, given the texts for the nodes below it. -/
def Spells (node : Node) (text : List Char) : Prop :=
  ∃ kindText spanText payloadText, Struct memberNames (node.spelledMembers kindText spanText) text ∧
    Struct Span.memberNames node.span.spelledMembers spanText ∧ IsObject [(node.tag, payloadText)] kindText ∧
      node.SpellsPayload child payloadText

end spells

variable {child child' : Step → Node → List Char → Prop} {node : Node} {kind : Kind} {text : List Char}

theorem spellsPayload_iff (hKind : node.kind? = some kind) : node.SpellsPayload child text ↔
    ∃ members, Field.AllSpelled child node.fields members ∧ Struct (node.fields.map Field.name) members text := by
  cases node with
  | unrecognized => cases hKind
  | _ => exact Iff.rfl

theorem SpellsPayload.imp (h : node.SpellsPayload child text)
    (hImp : ∀ step node' text', (step, node') ∈ node.stored → text'.length < text.length →
      child step node' text' → child' step node' text') : node.SpellsPayload child' text := by
  cases hKind : node.kind? with
  | none =>
    cases node with
    | unrecognized => exact h
    | _ => cases hKind
  | some kind =>
    rw [spellsPayload_iff hKind] at h ⊢
    obtain ⟨members, hMembers, hText⟩ := h
    refine ⟨members, hMembers.imp fun field hField text' hText' hSpelled => ?_, hText⟩
    obtain ⟨member, hMember, rfl⟩ := List.mem_map.mp hText'
    have hLength := hText.length_lt hMember
    exact hSpelled.imp fun step node' text'' hStored hLe =>
      hImp step node' text'' (mem_stored_of_field hField hStored) (by omega)

/-- The texts for the nodes below are shorter than that for the node. -/
theorem Spells.imp (h : node.Spells child text) (hImp : ∀ step node' text', (step, node') ∈ node.stored →
    text'.length < text.length → child step node' text' → child' step node' text') : node.Spells child' text := by
  obtain ⟨kindText, spanText, payloadText, hText, hSpan, hKindText, hPayload⟩ := h
  have hKindLength : kindText.length < text.length := hText.length_lt List.mem_cons_self
  have hPayloadLength : payloadText.length < kindText.length := hKindText.length_lt List.mem_cons_self
  refine ⟨kindText, spanText, payloadText, hText, hSpan, hKindText, ?_⟩
  refine hPayload.imp fun step node' text' hStored hLength => ?_
  exact hImp step node' text' hStored (by omega)

theorem Spells.head (h : node.Spells child text) : ∃ rest, text = '{' :: rest := by
  obtain ⟨_, _, _, ⟨_, _, ⟨inner, rfl, -⟩, -⟩, -⟩ := h
  exact ⟨_, rfl⟩

/-! ## Texts for trees -/

/-- The texts for a tree. -/
inductive Spelled : Node → List Char → Prop
  | intro {child : Step → Node → List Char → Prop} {node : Node} {text : List Char} (h : node.Spells child text)
    (hChild : ∀ step node' text', child step node' text' → Spelled node' text') : Spelled node text

/-- The texts for a tree in which the part for the node at the end of a path is one of the given texts instead. -/
def SpelledAround (hole : List Char → Prop) : Path → Node → List Char → Prop
  | [], _ => hole
  | step :: path, node => node.Spells fun step' child =>
    if step' = step then SpelledAround hole path child else child.Spelled

/-! ## Nodes that are put into a tree -/

end Node

namespace Field

/-- The field with another node at a step. -/
def replace (step : Step) (new : Node) : Field → Field
  | data name value => data name value
  | one slot child => one slot (if slot = step.slot then new else child)
  | many slot children => many slot (if slot = step.slot then children.set step.index new else children)
  | optional slot child => optional slot (if slot = step.slot then child.map fun _ => new else child)

/-- Whether the field is for a slot that holds no sequence. -/
def IsSingle (slot : Slot) : Field → Prop
  | one slot' _ | optional slot' _ => slot' = slot
  | _ => False

theorem name_replace (step : Step) (new : Node) (field : Field) : (field.replace step new).name = field.name := by
  cases field <;> rfl

section replace

variable {child child' : Step → Node → List Char → Prop} {step : Step} {new : Node} {fields : List Field}
  {members : List (String × List Char)} {text : List Char}

theorem forall₂_set {slot : Slot} {index start : Nat} {nodes : List Node} {texts : List (List Char)}
    (h : List.Forall₂ (fun edge => child edge.1 edge.2) (Node.enumerateFrom slot start nodes) texts)
    (hSelf : ∀ node text, child ⟨slot, start + index⟩ node text → child' ⟨slot, start + index⟩ new text)
    (hOthers : ∀ other node text, other ≠ ⟨slot, start + index⟩ → child other node text → child' other node text) :
    List.Forall₂ (fun edge => child' edge.1 edge.2) (Node.enumerateFrom slot start (nodes.set index new)) texts := by
  induction nodes generalizing start index texts with
  | nil =>
    cases h
    exact .nil
  | cons first rest ih =>
    cases h with
    | cons hFirst hRest =>
    cases index with
    | zero =>
      refine .cons (hSelf _ _ hFirst) (forall₂_imp_of_mem hRest fun edge hEdge text _ => hOthers _ _ _ fun hEq => ?_)
      obtain ⟨-, hLe, -⟩ := Node.mem_enumerateFrom.mp hEdge
      have hIndex : edge.1.index = start := congrArg Step.index hEq
      omega
    | succ index =>
      rw [← Nat.succ_add_eq_add_succ] at hSelf hOthers
      refine .cons (hOthers _ _ _ (fun hEq => ?_) hFirst) (ih hRest hSelf hOthers)
      have hIndex : start = start.succ + index := congrArg Step.index hEq
      omega

theorem Spelled.replace {field : Field} (h : field.Spelled child text)
    (hSelf : ∀ node text, child step node text → child' step new text)
    (hOthers : ∀ other node text, other ≠ step → child other node text → child' other node text)
    (hIndex : field.IsSingle step.slot → step.index = 0) : (field.replace step new).Spelled child' text := by
  obtain ⟨slot, index⟩ := step
  -- A field for another slot holds nothing that is replaced.
  have hNe {slot' : Slot} (hSlot : slot' ≠ slot) (index' : Nat) : Step.mk slot' index' ≠ ⟨slot, index⟩ :=
    fun hEq => hSlot (congrArg Step.slot hEq)
  cases field with
  | data => exact h
  | one slot' node =>
    rw [Field.replace]
    split
    · rename_i hSlot
      cases hSlot
      cases hIndex rfl
      exact hSelf _ _ h
    · exact hOthers _ _ _ (hNe ‹_› 0) h
  | optional slot' node =>
    rw [Field.replace]
    cases node with
    | none =>
      rw [Option.map_none, ite_self]
      exact h
    | some node =>
      split
      · rename_i hSlot
        cases hSlot
        cases hIndex rfl
        exact hSelf _ _ h
      · exact hOthers _ _ _ (hNe ‹_› 0) h
  | many slot' nodes =>
    obtain ⟨texts, inner, rfl, hElements, hTexts⟩ := h
    rw [Field.replace]
    refine ⟨texts, inner, rfl, hElements, ?_⟩
    split
    · rename_i hSlot
      cases hSlot
      refine forall₂_set hTexts ?_ ?_ <;> rwa [Nat.zero_add]
    · rename_i hSlot
      refine forall₂_imp_of_mem hTexts fun edge hEdge text _ => hOthers _ _ _ fun hEq => hSlot ?_
      obtain ⟨hSame, -, -⟩ := Node.mem_enumerateFrom.mp hEdge
      rw [← hSame, hEq]

theorem AllSpelled.replace (h : AllSpelled child fields members)
    (hSelf : ∀ node text, child step node text → child' step new text)
    (hOthers : ∀ other node text, other ≠ step → child other node text → child' other node text)
    (hIndex : ∀ field ∈ fields, field.IsSingle step.slot → step.index = 0) :
    AllSpelled child' (fields.map (Field.replace step new)) members := by
  induction h with
  | nil => exact .nil
  | cons hText _ ih =>
    obtain ⟨hFirst, hRest⟩ := List.forall_mem_cons.mp hIndex
    rw [List.map_cons, ← name_replace step new]
    exact .cons (hText.replace hSelf hOthers hFirst) (ih hRest)
  | absent _ ih =>
    obtain ⟨-, hRest⟩ := List.forall_mem_cons.mp hIndex
    rw [List.map_cons, Field.replace, Option.map_none, ite_self]
    exact .absent (ih hRest)

end replace

end Field

namespace Node

theorem fields_replaceStep (node : Node) (step : Step) (new : Node) :
    (node.replaceStep step new).fields = node.fields.map (Field.replace step new) := by
  obtain ⟨slot, index⟩ := step
  cases node with
  | conditional _ _ _ elseClause => cases elseClause <;> cases slot <;> rfl
  | _ => cases slot <;> rfl

theorem tag_of_kind {node : Node} {kind : Kind} (h : node.kind? = some kind) : node.tag = kind.name := by
  cases node <;> cases h <;> rfl

variable {node child new : Node} {step : Step} {field : Field} {text : List Char}

theorem children_of_isSingle {slot : Slot} (hField : field ∈ node.fields) (h : field.IsSingle slot) :
    node.children slot = [] := by
  cases field with
  | data | many => cases h
  | one | optional =>
    cases h
    cases node <;> simp only [fields, List.mem_cons, List.not_mem_nil, reduceCtorEq, Field.one.injEq,
      Field.optional.injEq, or_false, false_or] at hField <;> rcases hField with ⟨rfl, -⟩ | ⟨rfl, -⟩ <;> rfl

/-- A text for a node is one for the node with another one at a step, if it is one for that node at its place. -/
theorem Spells.replaceStep {rel rel' : Step → Node → List Char → Prop} (h : node.Spells rel text)
    (hStored : (step, child) ∈ node.stored) (hSelf : ∀ text, rel step child text → rel' step new text)
    (hOthers : ∀ other node text, other ≠ step → rel other node text → rel' other node text) :
    (node.replaceStep step new).Spells rel' text := by
  obtain ⟨kind, hKind⟩ := Option.isSome_iff_exists.mp (kind?_of_mem_stored hStored)
  have hNewKind : (node.replaceStep step new).kind? = some kind := (kind?_replaceStep node step new).trans hKind
  have hBelow : node.Spells (fun other node' text => (other, node') ∈ node.stored ∧ rel other node' text) text :=
    h.imp fun other node' text hOther _ hRel => ⟨hOther, hRel⟩
  obtain ⟨kindText, spanText, payloadText, hText, hSpan, hKindText, hPayload⟩ := hBelow
  obtain ⟨members, hMembers, hPayload⟩ := (spellsPayload_iff hKind).mp hPayload
  refine ⟨kindText, spanText, payloadText, ?_, ?_, ?_, ?_⟩
  · rwa [spelledMembers, place_replaceStep]
  · rwa [span, place_replaceStep]
  · rwa [tag_of_kind hNewKind, ← tag_of_kind hKind]
  · refine (spellsPayload_iff hNewKind).mpr ⟨members, ?_, ?_⟩
    · rw [fields_replaceStep]
      refine hMembers.replace ?_ ?_ ?_
      · rintro node' text ⟨hNode, hRel⟩
        have hChild : some node' = some child := (mem_stored.mp hNode).symm.trans (mem_stored.mp hStored)
        cases hChild
        exact hSelf text hRel
      · rintro other node' text hNe ⟨-, hRel⟩
        exact hOthers other node' text hNe hRel
      · intro field hField hSingle
        rcases get?_cases (mem_stored.mp hStored) with ⟨-, hIndex⟩ | ⟨-, hChildren⟩
        · exact hIndex
        · exact absurd (children_of_isSingle hField hSingle) hChildren
    · rw [fields_replaceStep, List.map_map]
      simp only [Function.comp_def, Field.name_replace]
      exact hPayload

/-- With texts for another node in its place, the text for a tree is one for the tree with that node. -/
theorem spelled_replaceAt {root target new : Node} {path : Path} (hAt : root.At path target)
    (h : root.SpelledAround new.Spelled path text) : (root.replaceAt path new).Spelled text := by
  induction hAt generalizing text with
  | here => exact h
  | @step node child target step path hStored _ ih =>
    rw [replaceAt, mem_stored.mp hStored]
    have hSelf (text : List Char) (hText : (if step = step then SpelledAround new.Spelled path child else child.Spelled)
        text) : (child.replaceAt path new).Spelled text := by
      rw [if_pos rfl] at hText
      exact ih hText
    have hOthers (other : Step) (node : Node) (text : List Char) (hNe : other ≠ step)
        (hText : (if other = step then SpelledAround new.Spelled path node else node.Spelled) text) :
        node.Spelled text := by
      rwa [if_neg hNe] at hText
    exact .intro (h.replaceStep hStored hSelf hOthers) fun _ _ _ hText => hText

end Node

end Listfile
