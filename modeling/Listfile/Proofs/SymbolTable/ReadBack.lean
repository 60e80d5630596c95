import Listfile.SymbolTable.Json
import Listfile.Proofs.Json.Levels
import Listfile.Proofs.Json.Objects
import Listfile.Proofs.SymbolTable.History
/-! # Reading symbol tables

The text of an object is read as the table that results from its members, defined one after the other: however strings
are escaped there, names that are equal are one name, which keeps its first place and takes its last value. The entries
of a table, defined in their order, are that table again, so that what is written for a table is read as that table.
-/
namespace Listfile.SymbolTable
set_option autoImplicit false

open Json (Blank IsObject Record SpelledMembers)
open Json.Reader

/-! ## Definitions made anew -/

theorem setEntry_of_notMem {name : String} {entries : List (String × String)} (h : name ∉ entries.map (·.1))
    (value : String) : setEntry name value entries = entries ++ [(name, value)] := by
  induction entries with
  | nil => rfl
  | cons entry rest ih =>
    obtain ⟨other, old⟩ := entry
    obtain ⟨hNe, hRest⟩ := not_or.mp (mt List.mem_cons.mpr h)
    rw [setEntry_cons, if_neg (Ne.symm hNe), ih hRest, List.cons_append]

/-- New names come after those of the table, in their order. -/
theorem entries_defineAll {table : SymbolTable} {definitions : List (String × String)}
    (h : ((table.entries ++ definitions).map (·.1)).Nodup) :
    (table.defineAll definitions).entries = table.entries ++ definitions := by
  induction definitions generalizing table with
  | nil => exact (List.append_nil _).symm
  | cons definition rest ih =>
    obtain ⟨name, value⟩ := definition
    have hNew : name ∉ table.entries.map (·.1) := by
      rw [List.map_append, List.map_cons] at h
      exact fun hMem => (List.nodup_append.mp h).2.2 name hMem name List.mem_cons_self rfl
    have hFirst : (table.define name value).entries = table.entries ++ [(name, value)] := setEntry_of_notMem hNew value
    rw [List.append_cons, ← hFirst] at h
    rw [defineAll_cons, ih h, hFirst, ← List.append_cons]

theorem ofList_entries (table : SymbolTable) : ofList table.entries = table := by
  have hEntries : (ofList table.entries).entries = table.entries := entries_defineAll table.names_nodup
  have hNames : (ofList table.entries).names = table.names := congrArg (List.map Prod.fst) hEntries
  exact eq_of_lookup?_eq hNames fun name => congrArg (List.lookup name) hEntries

/-! ## Members of an object -/

/-- The members that are written for definitions. -/
def definitionMembers (definitions : List (String × String)) : List (String × Json) :=
  definitions.map fun (name, value) => (name, .string value)

def definitionsJson (definitions : List (String × String)) : Json :=
  .object [("symbols", .object (definitionMembers definitions))]

theorem toJson_eq (table : SymbolTable) : table.toJson = definitionsJson table.entries := rfl

def readDefinition (table : SymbolTable) (name : String) : Json.Reader SymbolTable := do
  colon
  return table.define name (← string)

theorem chain_readDefinition {definitions : List (String × String)} {named : List (String × List Char)}
    (h : SpelledMembers (definitionMembers definitions) named) (table : SymbolTable) :
    Chain readDefinition table named (table.defineAll definitions) := by
  induction definitions generalizing named table with
  | nil =>
    rw [definitionMembers, List.map_nil, SpelledMembers] at h
    rw [h]
    exact .nil table
  | cons definition rest ih =>
    obtain ⟨name, value⟩ := definition
    rw [definitionMembers, List.map_cons, SpelledMembers] at h
    obtain ⟨text, others, rfl, hText, hOthers⟩ := h
    rw [Json.Spelled] at hText
    refine .cons (fun blanks hBlanks => ?_) (ih hOthers (table.define name value))
    exact takes_colon (takes_string hText) hBlanks fun _ _ => rfl

theorem takes_definitions {definitions : List (String × String)} {text : List Char}
    (h : (Json.object (definitionMembers definitions)).Spelled text) :
    definitionsReader.Takes text (ofList definitions) := by
  rw [Json.Spelled] at h
  obtain ⟨named, ⟨inner, rfl, hMembers⟩, hNamed⟩ := h
  intro room blanks rest hBlanks hRoom hRest
  simp only [List.length_cons, List.length_append, List.length_nil] at hRoom
  simp only [List.cons_append, List.append_assoc, List.nil_append]
  refine (bind_ok (peek_ok hBlanks (by decide))).trans ?_
  refine (bind_ok (nested_fold_ok hMembers (chain_readDefinition hNamed empty) (by omega))).trans ?_
  exact (bind_ok (endObject_ok Json.blank_nil)).trans rfl

theorem takes_table {definitions : List (String × String)} {text : List Char}
    (h : (definitionsJson definitions).Spelled text) : reader.Takes text (ofList definitions) := by
  rw [definitionsJson, Json.Spelled] at h
  obtain ⟨named, hObject, hNamed⟩ := h
  rw [SpelledMembers] at hNamed
  obtain ⟨symbols, others, rfl, hSymbols, hOthers⟩ := hNamed
  rw [SpelledMembers] at hOthers
  subst hOthers
  refine Takes.bind (x := (ofList definitions, ())) ?_ fun _ _ => rfl
  apply Record.takes_object "SymbolTable" hObject
  · exact Record.holds_cons (takes_definitions hSymbols) List.not_mem_nil trivial
  · intro member hMember hName
    rw [List.mem_singleton.mp hMember] at hName
    exact absurd List.mem_cons_self hName

/-! ## Levels -/

theorem shallow_definitionsReader : definitionsReader.Shallow 1 := by
  apply shallow_peek.bind
  intro next
  split
  · have hStep (table : SymbolTable) (name : String) : (readDefinition table name).Shallow 0 :=
      shallow_colon.bind fun _ => shallow_string.bind fun value => shallow_pure (table.define name value)
    have hMembers : (do take; fold readDefinition empty).Shallow 0 := shallow_take.bind fun _ => .fold hStep empty
    exact hMembers.nested.bind fun table => shallow_endObject.bind fun _ => shallow_pure table
  · exact shallow_mismatch _

theorem shallow_reader : reader.Shallow 2 := by
  have hRecord : (Record.member "symbols" definitionsReader none .done).Shallow 1 :=
    ⟨shallow_definitionsReader, trivial⟩
  exact (Record.shallow_read hRecord "SymbolTable").bind fun result => shallow_pure result.1

/-! ## Whole texts -/

theorem ofJson_of_spelled {definitions : List (String × String)} {before inner after : List Char} (hBefore : Blank before)
    (hAfter : Blank after) (h : (definitionsJson definitions).Spelled inner) :
    ofJson (String.ofList (before ++ (inner ++ after))) = .ok (ofList definitions) := by
  have hRoom : 2 ≤ levelLimit := by decide
  calc ofJson (String.ofList (before ++ (inner ++ after)))
      = reader.run (max inner.length 2) (String.ofList (before ++ (inner ++ after))) :=
        shallow_reader.run_eq hRoom (Nat.le_max_right _ _) _
    _ = .ok (ofList definitions) :=
        run_of_takes (takes_table h) hBefore hAfter String.toList_ofList (Nat.le_max_left _ _)

theorem writable_definitionsJson (definitions : List (String × String)) :
    (definitionsJson definitions).Everywhere Json.Writable := by
  refine Json.everywhere_object trivial (List.forall_mem_singleton.mpr (Json.everywhere_object trivial ?_))
  intro member hMember
  obtain ⟨definition, -, rfl⟩ := List.mem_map.mp hMember
  intro inner hInner
  cases hInner
  trivial

theorem ofJson_render (definitions : List (String × String)) (layout : Json.Layout) :
    ofJson ((definitionsJson definitions).render layout) = .ok (ofList definitions) := by
  have hSpelled := Json.spelled_written layout (definitionsJson definitions) (writable_definitionsJson definitions) 0
  have hText := ofJson_of_spelled Json.blank_nil Json.blank_nil hSpelled
  rwa [List.nil_append, List.append_nil] at hText

/-- Reading keeps the order of definitions. Every text of an object with definitions, with blanks anywhere and strings
escaped in any way, is read as the table that results from making them one after the other, entries in order. So what is
written for a table is read as that table, and is written for it again. -/
theorem json_keeps_order :
    (∀ (definitions : List (String × String)) (before inner after : List Char), Blank before → Blank after →
      (definitionsJson definitions).Spelled inner →
        ofJson (String.ofList (before ++ (inner ++ after))) = .ok (ofList definitions)) ∧
    (∀ definitions layout, ofJson ((definitionsJson definitions).render layout) = .ok (ofList definitions)) ∧
    ∀ table : SymbolTable, ofJson table.render = .ok table ∧ (ofJson table.render).map render = .ok table.render := by
  refine ⟨?_, ofJson_render, fun table => ?_⟩
  · intro definitions before inner after hBefore hAfter hSpelled
    exact ofJson_of_spelled hBefore hAfter hSpelled
  · have hRead : ofJson table.render = .ok table := by
      rw [render, toJson_eq, ofJson_render, ofList_entries]
    refine ⟨hRead, ?_⟩
    rw [hRead]
    rfl

/-- A name that comes twice, the second time with an escape. -/
theorem json_keeps_order_of_escaped :
    let definitions := [("A", "1"), ("B", "2"), ("A", "3")]
    let inner := "\x7b\"symbols\": \x7b\"A\":\"1\",\"B\":\"2\", \"\\u0041\":\"3\"\x7d\x7d".toList
    (definitionsJson definitions).Spelled inner ∧
      ofJson (String.ofList (['\n'] ++ (inner ++ []))) = .ok (ofList definitions) ∧
      (ofList definitions).entries = [("A", "3"), ("B", "2")] := by
  intro definitions inner
  have hNil : Blank [] := Json.blank_nil
  have hSpace : Blank [' '] := fun c hc => by rw [List.mem_singleton.mp hc]; rfl
  have hLine : Blank ['\n'] := fun c hc => by rw [List.mem_singleton.mp hc]; rfl
  have hPlain (name : String) := Json.readString_quotedRest name
  have hEscaped (more : List Char) :
      Json.readString ("\\u0041\"".toList ++ more) = .ok ("A".toList, more) :=
    Json.readString_backslash rfl (Json.readString_escapeAll [] more)
  have hThird := @Json.Members.cons false [] [' '] [] [] _ "\"3\"".toList _ _ _ hNil hSpace hNil hNil hEscaped
    (.nil hNil)
  have hSecond := @Json.Members.cons false [] [] [] [] _ "\"2\"".toList _ _ _ hNil hNil hNil hNil (hPlain "B") hThird
  have hFirst := @Json.Members.cons true [] [] [] [] _ "\"1\"".toList _ _ _ hNil hNil hNil hNil (hPlain "A") hSecond
  have hSymbols := @Json.Members.cons true [] [] [] [' ']  _
    "\x7b\"A\":\"1\",\"B\":\"2\", \"\\u0041\":\"3\"\x7d".toList _ _ _ hNil hNil hNil hSpace (hPlain "symbols")
    (.nil hNil)
  have hSpelled : (definitionsJson definitions).Spelled inner := by
    refine ⟨_, ⟨_, rfl, hSymbols⟩, _, _, rfl, ⟨_, ⟨_, rfl, hFirst⟩, ?_⟩, rfl⟩
    exact ⟨_, _, rfl, ⟨_, rfl, hPlain "1"⟩, _, _, rfl, ⟨_, rfl, hPlain "2"⟩, _, _, rfl, ⟨_, rfl, hPlain "3"⟩, rfl⟩
  exact ⟨hSpelled, json_keeps_order.1 definitions ['\n'] inner [] hLine hNil hSpelled, rfl⟩

end Listfile.SymbolTable
