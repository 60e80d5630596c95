import Listfile.Proofs.Tree.Refused
import Listfile.Proofs.Tree.Unchanged
/-! # Where texts may differ, and where not

A tree is read from all texts for it, not only from the one that is written. A text in which a known node is damaged is
refused, wherever the node is in the tree. If only its tag is not that of a known kind, this node alone comes to have
unknown contents: all that it consists of.
-/
namespace Listfile.Node
set_option autoImplicit false

/-! ## Another node at the end of a path -/

section replaceAt

variable {root target new : Node} {path : Path}

theorem everywhere_replaceAt {property : Node → Prop}
    (hStep : ∀ node step child, property node → property (node.replaceStep step child)) (hAt : root.At path target)
    (h : root.Everywhere property) (hNew : new.Everywhere property) :
    (root.replaceAt path new).Everywhere property := by
  induction hAt with
  | here => exact hNew
  | @step node child target step path hStored _ ih =>
    obtain ⟨hSelf, hBelow⟩ := everywhere_iff.mp h
    have hGet := mem_stored.mp hStored
    have hChild := ih (hBelow child (List.mem_map_of_mem hStored))
    rw [replaceAt, hGet]
    refine everywhere_iff.mpr ⟨hStep node step _ hSelf, fun node' hNode' => ?_⟩
    obtain ⟨⟨other, _⟩, hOther, rfl⟩ := List.mem_map.mp hNode'
    rw [mem_stored] at hOther
    by_cases hSame : other = step
    · rw [hSame, get?_replaceStep_self _ hGet] at hOther
      cases hOther
      exact hChild
    · rw [get?_replaceStep_of_ne _ hGet hSame, ← mem_stored] at hOther
      exact hBelow _ (List.mem_map_of_mem hOther)

theorem mapFields_replaceStep (f : FieldMap) (node new : Node) (step : Step) :
    (node.replaceStep step new).mapFields f = (node.mapFields f).replaceStep step (new.mapFields f) := by
  obtain ⟨slot, index⟩ := step
  cases node with
  | conditional _ _ _ elseClause =>
    cases elseClause <;> cases slot <;>
      simp [replaceStep, setChild, setChildren, children, mapFields, mapFieldsAll_eq, mapFieldsOption, List.map_set]
  | _ => cases slot <;> simp [replaceStep, setChild, setChildren, children, mapFields, mapFieldsAll_eq, List.map_set]

theorem mapFields_replaceAt (f : FieldMap) (root new : Node) (path : Path) :
    (root.replaceAt path new).mapFields f = (root.mapFields f).replaceAt path (new.mapFields f) := by
  induction path generalizing root with
  | nil => rfl
  | cons step path ih =>
    rw [replaceAt, replaceAt, get?_mapFields]
    cases root.get? step with
    | none => rfl
    | some child => rw [mapFields_replaceStep, ih child]; rfl

end replaceAt

theorem everywhere_of_at {property : Node → Prop} {root target : Node} {path : Path} (hAt : root.At path target)
    (h : root.Everywhere property) : target.Everywhere property := by
  induction hAt with
  | here => exact h
  | step hStored _ ih => exact ih ((everywhere_iff.mp h).2 _ (List.mem_map_of_mem hStored))

theorem legible_iff_fits {node : Node} {kind : Kind} (hKind : node.kind? = some kind) :
    node.Legible ↔ node.place.Fits := by
  cases node with
  | unrecognized => cases hKind
  | _ => exact Iff.rfl

theorem Legible.replaceStep {node : Node} (h : node.Legible) (step : Step) (child : Node) :
    (node.replaceStep step child).Legible := by
  cases hKind : node.kind? with
  | some kind =>
    rw [legible_iff_fits ((kind?_replaceStep node step child).trans hKind), place_replaceStep]
    exact h.fits
  | none =>
    obtain ⟨slot, index⟩ := step
    cases node with
    | unrecognized => cases slot <;> exact h
    | _ => cases hKind

/-! ## Other tags and damage -/

section edits

variable {root target : Node} {path : Path} {text : String}

theorem error_of_not_accepts {texts : List Char → Prop}
    (h : ∀ text, texts text → ∀ fuel, ¬(readerWithin fuel).Accepts text)
    (hText : Padded texts text) : ∃ error, ofJson text = .error error := by
  obtain ⟨before, inner, after, hText, hBefore, hAfter, hInner⟩ := hText
  cases hRead : reader text.length text.toList with
  | error error =>
    refine ⟨error, ?_⟩
    rw [ofJson, Json.Reader.runUnlimited, Json.Reader.run, hRead]
    rfl
  | ok result =>
    obtain ⟨node, rest⟩ := result
    rw [reader, hText] at hRead
    obtain ⟨fuel, _, hMeasure, hNode⟩ := Json.Reader.reads_bind hRead
    cases hMeasure
    have hDelimited := Json.Delimited.blanks hAfter Json.delimited_nil
    rw [List.append_nil] at hDelimited
    exact absurd ⟨_, before, after, node, rest, hBefore, hDelimited, hNode⟩ (h inner hInner _)

theorem error_of_damaged {kind : Kind} (h : root.Everywhere Legible) (hAt : root.At path target)
    (hKind : target.kind? = some kind) (hText : Padded (root.SpelledAround target.Damaged path) text) :
    ∃ error, ofJson text = .error error := by
  have hNot (text : List Char) (hDamaged : target.Damaged text) := not_accepts_damaged hKind hDamaged
  refine error_of_not_accepts (fun text hText => ?_) hText
  exact not_accepts_around (fun _ hDamaged => hDamaged.isObjectValue) hNot hAt h hText

/-- A node with a tag that is not known is read as one of unknown kind, and all else as before. -/
theorem ofJson_of_unknown_tag {tag : String} (h : root.Everywhere Readable) (hAt : root.At path target)
    (hTag : Kind.ofName? tag = none)
    (hText : Padded (root.SpelledAround (Spelled (.unrecognized target.place tag target.payload)) path) text) :
    ofJson text = .ok (root.replaceAt path (.unrecognized target.place tag target.payload.sorted)) := by
  have hLegible : root.Everywhere Legible := h.imp fun _ hNode => hNode.1.legible
  have hPlain : target.payload.Everywhere Json.Plain :=
    plain_payload target (everywhere_of_at hAt (h.imp fun _ hNode => ⟨hNode.1.legible, hNode.2⟩))
  have hNew : (unrecognized target.place tag target.payload).Legible :=
    ⟨(hLegible path target hAt).fits, hTag, fun inner hInner => (hPlain inner hInner).writable⟩
  have hAll : (root.replaceAt path (unrecognized target.place tag target.payload)).Everywhere Legible :=
    everywhere_replaceAt (fun _ step child hNode => hNode.replaceStep step child) hAt hLegible
      ((everywhere_leaf rfl).mpr hNew)
  have hReceived := received_of_readable h
  obtain ⟨before, inner, after, hText, hBefore, hAfter, hInner⟩ := hText
  rw [ofJson_of_spelled hAll ⟨before, inner, after, hText, hBefore, hAfter, spelled_replaceAt hAt hInner⟩]
  -- Nothing else is changed by what reading makes of a tree.
  rw [received, mapFields_replaceAt]
  rw [received] at hReceived
  rw [hReceived, mapFields]
  simp only [receiving, id, Json.reread_of_plain _ hPlain]

end edits

/-! ## There are such texts -/

theorem exists_isObject (members : List (String × List Char)) : ∃ text, Json.IsObject members text := by
  have hMembers (first : Bool) : ∃ inner, Json.Members first members inner := by
    induction members generalizing first with
    | nil => exact ⟨[], .nil Json.blank_nil⟩
    | cons member rest ih =>
      obtain ⟨inner, hInner⟩ := ih false
      exact ⟨_, .cons Json.blank_nil Json.blank_nil Json.blank_nil Json.blank_nil (Json.readString_quotedRest member.1)
        hInner⟩
  obtain ⟨inner, hInner⟩ := hMembers true
  exact ⟨_, inner, rfl, hInner⟩

theorem exists_elements (first : Bool) {texts : List (List Char)} (h : ∀ text ∈ texts, Json.Announces text) :
    ∃ inner, Json.Elements first texts inner := by
  induction texts generalizing first with
  | nil => exact ⟨[], .nil Json.blank_nil⟩
  | cons text rest ih =>
    obtain ⟨hFirst, hRest⟩ := List.forall_mem_cons.mp h
    obtain ⟨inner, hInner⟩ := ih false hRest
    exact ⟨_, .cons Json.blank_nil Json.blank_nil hFirst hInner⟩

theorem exists_struct (names : List String) (fields : List (String × List Char)) :
    ∃ text, Json.Struct names fields text := by
  obtain ⟨text, hText⟩ := exists_isObject fields
  exact ⟨text, [], fields, hText, by rw [List.append_nil], List.forall_mem_nil _⟩

section exist

variable {child : Step → Node → List Char → Prop} {node : Node}

theorem exists_fieldText {field : Field} (hField : field ∈ node.fields)
    (h : ∀ edge ∈ field.stored, ∃ text, child edge.1 edge.2 text ∧ Json.Announces text) :
    ∃ text, field.Spelled child text := by
  cases field with
  | data name value => exact ⟨_, Json.spelled_written .compact value (writable_of_data hField) 0⟩
  | one slot other =>
    obtain ⟨text, hText, -⟩ := h _ List.mem_cons_self
    exact ⟨text, hText⟩
  | optional slot other =>
    cases other with
    | none => exact ⟨_, rfl⟩
    | some other =>
      obtain ⟨text, hText, -⟩ := h _ List.mem_cons_self
      exact ⟨text, hText⟩
  | many slot others =>
    obtain ⟨texts, hTexts, hAnnounces⟩ := exists_forall₂ h
    obtain ⟨inner, hInner⟩ := exists_elements true hAnnounces
    exact ⟨_, texts, inner, rfl, hInner, hTexts⟩

theorem exists_allSpelled {fields : List Field} (h : ∀ field ∈ fields, ∃ text, field.Spelled child text) :
    ∃ members, Field.AllSpelled child fields members := by
  induction fields with
  | nil => exact ⟨[], .nil⟩
  | cons field rest ih =>
    obtain ⟨⟨text, hText⟩, hRest⟩ := List.forall_mem_cons.mp h
    obtain ⟨members, hMembers⟩ := ih hRest
    exact ⟨_, .cons hText hMembers⟩

theorem exists_spellsPayload (hLegible : node.Legible)
    (h : ∀ edge ∈ node.stored, ∃ text, child edge.1 edge.2 text ∧ Json.Announces text) :
    ∃ text, node.SpellsPayload child text := by
  cases hKind : node.kind? with
  | none =>
    cases node with
    | unrecognized => exact ⟨_, Json.spelled_written .compact _ hLegible.2.2 0⟩
    | _ => cases hKind
  | some kind =>
    obtain ⟨members, hMembers⟩ := exists_allSpelled fun field hField =>
      exists_fieldText hField fun edge hEdge => h edge (mem_stored_of_field hField hEdge)
    obtain ⟨text, hText⟩ := exists_struct (node.fields.map Field.name) members
    exact ⟨text, (spellsPayload_iff hKind).mpr ⟨members, hMembers, hText⟩⟩

theorem exists_spells (hLegible : node.Legible)
    (h : ∀ edge ∈ node.stored, ∃ text, child edge.1 edge.2 text ∧ Json.Announces text) :
    ∃ text, node.Spells child text := by
  obtain ⟨payloadText, hPayload⟩ := exists_spellsPayload hLegible h
  obtain ⟨kindText, hKind⟩ := exists_isObject [(node.tag, payloadText)]
  obtain ⟨spanText, hSpan⟩ := exists_struct Span.memberNames node.span.spelledMembers
  obtain ⟨text, hText⟩ := exists_struct memberNames (node.spelledMembers kindText spanText)
  exact ⟨text, kindText, spanText, payloadText, hText, hSpan, hKind, hPayload⟩

end exist

/-- Each text can stand in the place of each node, however deep in a tree. -/
theorem exists_padded_around {hole : List Char → Prop} (hHole : ∀ text, hole text → IsObjectValue text)
    (hExists : ∃ text, hole text) {root target : Node} {path : Path} (hAt : root.At path target)
    (hLegible : root.Everywhere Legible) : ∃ text, Padded (root.SpelledAround hole path) text := by
  have hAround : ∃ text, root.SpelledAround hole path text := by
    induction hAt with
    | here => exact hExists
    | @step node child target step path hStored _ ih =>
      obtain ⟨hSelf, hBelow⟩ := everywhere_iff.mp hLegible
      refine exists_spells hSelf fun edge hEdge => ?_
      have hChild := hBelow edge.2 (List.mem_map_of_mem hEdge)
      split
      · -- There is one child at a step.
        rename_i hSame
        have hNode : some edge.2 = some child := by
          rw [← mem_stored.mp hStored, ← hSame, ← mem_stored.mp hEdge]
        cases hNode
        obtain ⟨text, hText⟩ := ih hChild
        exact ⟨text, hText, (isObjectValue_of_around hHole hChild hText).1.announces⟩
      · have hText := spelled_written .compact edge.2 hChild 0
        exact ⟨_, hText, (isValue_of_spelled hText hChild).announces⟩
  obtain ⟨text, hText⟩ := hAround
  refine ⟨String.ofList text, [], text, [], ?_, Json.blank_nil, Json.blank_nil, hText⟩
  rw [String.toList_ofList, List.nil_append, List.append_nil]

/-- Whatever text there is for a tree, it is read as that tree. If a known node in it is damaged, there is no result,
and if only its tag is not known, this node and no other one is read as one of unknown kind, with all its contents. -/
theorem ofJson_tolerates {root : Node} (h : root.Everywhere Readable) :
    (∀ layout, Padded root.Spelled (root.render layout)) ∧
    (∀ text, Padded root.Spelled text → ofJson text = .ok root) ∧
    ∀ path target kind, root.At path target → target.kind? = some kind →
      (∀ text, Padded (root.SpelledAround target.Damaged path) text → ∃ error, ofJson text = .error error) ∧
      ∀ tag text, Kind.ofName? tag = none →
        Padded (root.SpelledAround (Spelled (.unrecognized target.place tag target.payload)) path) text →
          ofJson text = .ok (root.replaceAt path (.unrecognized target.place tag target.payload.sorted)) := by
  have hLegible : root.Everywhere Legible := h.imp fun _ hNode => hNode.1.legible
  refine ⟨fun layout => ?_, fun text hText => ?_, fun path target kind hAt hKind => ⟨fun text hText => ?_, ?_⟩⟩
  · refine ⟨[], _, [], ?_, Json.blank_nil, Json.blank_nil, spelled_written layout root hLegible 0⟩
    rw [List.nil_append, List.append_nil]
    exact String.toList_ofList
  · rw [ofJson_of_spelled hLegible hText, received_of_readable h]
  · exact error_of_damaged hLegible hAt hKind hText
  · exact fun tag text hTag hText => ofJson_of_unknown_tag h hAt hTag hText

/-- The word of a script that has nothing else. -/
def only : Node := .word ⟨⟨0, 3⟩, ⟨1, 1⟩⟩ .unquoted "foo"

def onlyScript : Node := .toplevel ⟨⟨0, 3⟩, ⟨1, 1⟩⟩ [only]

theorem readable_onlyScript : onlyScript.Everywhere Readable := by
  have hFits : Location.Fits ⟨⟨0, 3⟩, ⟨1, 1⟩⟩ := by
    unfold Location.Fits Json.Fits
    decide
  exact everywhere_toplevel.mpr ⟨⟨hFits, trivial⟩,
    List.forall_mem_singleton.mpr ((everywhere_leaf rfl).mpr ⟨hFits, trivial⟩)⟩

/-- The word may be damaged, or have an unknown tag, below the node for the script. -/
theorem ofJson_tolerates_of_onlyScript :
    ofJson (onlyScript.render .indented) = .ok onlyScript ∧
      (∃ text, Padded (onlyScript.SpelledAround only.Damaged [⟨.statements, 0⟩]) text ∧
        ∃ error, ofJson text = .error error) ∧
      ∃ text, Padded (onlyScript.SpelledAround (Spelled (.unrecognized only.place "Note" only.payload)) [⟨.statements, 0⟩])
          text ∧
        ofJson text = .ok (.toplevel ⟨⟨0, 3⟩, ⟨1, 1⟩⟩ [.unrecognized only.place "Note" only.payload.sorted]) := by
  obtain ⟨hRender, hRead, hEdits⟩ := ofJson_tolerates readable_onlyScript
  have hAt : onlyScript.At [⟨.statements, 0⟩] only := nodeAt?_eq_some.mp rfl
  obtain ⟨hDamaged, hUnknown⟩ := hEdits [⟨.statements, 0⟩] only .word hAt rfl
  have hLegible : onlyScript.Everywhere Legible := readable_onlyScript.imp fun _ hNode => hNode.1.legible
  have hNoteTag : Kind.ofName? "Note" = none := by decide
  refine ⟨hRead _ (hRender .indented), ?_, ?_⟩
  · -- The object for the word has lost all members.
    have hEmpty : only.Damaged ['{', '}'] :=
      ⟨[], ⟨⟨[], rfl, .nil Json.blank_nil⟩, List.forall_mem_nil _⟩, .inl (.inl ⟨"kind", List.mem_cons_self, by simp⟩)⟩
    obtain ⟨text, hText⟩ :=
      exists_padded_around (fun _ hDamaged => hDamaged.isObjectValue) ⟨_, hEmpty⟩ hAt hLegible
    exact ⟨text, hText, hDamaged text hText⟩
  · have hPlain : only.payload.Everywhere Json.Plain := plain_payload only (everywhere_of_at hAt
      (readable_onlyScript.imp fun _ hNode => ⟨hNode.1.legible, hNode.2⟩))
    have hNote : (unrecognized only.place "Note" only.payload).Everywhere Legible := (everywhere_leaf rfl).mpr
      ⟨(hLegible _ _ hAt).fits, hNoteTag, fun inner hInner => (hPlain inner hInner).writable⟩
    obtain ⟨text, hText⟩ := exists_padded_around (fun text hText => ⟨isValue_of_spelled hText hNote, hText.head⟩)
      ⟨_, spelled_written .compact _ hNote 0⟩ hAt hLegible
    exact ⟨text, hText, hUnknown "Note" text hNoteTag hText⟩

end Listfile.Node
