import Listfile.Proofs.Tree.Contents
/-! # Readers of nodes that take whole texts

The readers of spans, kinds and nodes take a value as a whole if they give a result for it at all, whatever the value
is. The object with the tag of a node has no other members then, and the contents of a node of known kind are read as
such.
-/
namespace Listfile
set_option autoImplicit false

open Json (Reader Record IsObject IsValue Entries StringBody Blank)
open Json.Reader

theorem Span.exact_reader : Span.reader.Exact := by
  refine Exact.bind (Record.exact_read ?_ "Span") fun h => (reads_pure h).2
  exact ⟨exact_natural, exact_natural, trivial⟩

namespace Node

theorem exists_of_kind (kind : Kind) : ∃ node : Node, node.kind? = some kind := by
  cases kind with
  | toplevel => exact ⟨.toplevel default [], rfl⟩
  | whileLoop => exact ⟨.block default .whileLoop default [] default, rfl⟩
  | foreachLoop => exact ⟨.block default .foreachLoop default [] default, rfl⟩
  | functionDefinition => exact ⟨.block default .functionDefinition default [] default, rfl⟩
  | macroDefinition => exact ⟨.block default .macroDefinition default [] default, rfl⟩
  | conditional => exact ⟨.conditional default default [] none default, rfl⟩
  | ifClause => exact ⟨.clause default .ifClause default [], rfl⟩
  | elseifClause => exact ⟨.clause default .elseifClause default [], rfl⟩
  | elseClause => exact ⟨.clause default .elseClause default [], rfl⟩
  | call => exact ⟨.call default "" [], rfl⟩
  | inclusion => exact ⟨.inclusion default "" [], rfl⟩
  | word => exact ⟨.word default .unquoted "", rfl⟩

variable {reader : Reader Node}

theorem exact_payloadReader (hReader : reader.Exact) (kind : Kind) : (payloadReader reader kind).Exact := by
  obtain ⟨node, hKind⟩ := exists_of_kind kind
  obtain ⟨τ, record, x, finish, name, hEq, -, hReadAs⟩ := exists_record reader hKind
  rw [hEq]
  exact Exact.bind (Record.exact_read (hReadAs.allExact hReader) name) fun h => (reads_pure h).2

theorem entries_eq_nil_of_reads {entries : List (List Char × List Char)} {room : Nat} {text rest rest' : List Char}
    (h : Entries false entries text) (hRead : (hasMember false).Reads room (text ++ '}' :: rest) false rest') :
    entries = [] ∧ '}' :: rest = rest' := by
  unfold Reads at hRead
  cases h with
  | nil hBlanks =>
    rw [hasMember_nil hBlanks] at hRead
    cases hRead
    exact ⟨rfl, rfl⟩
  | cons hBefore hAfter =>
    simp only [List.append_assoc, List.cons_append] at hRead
    rw [hasMember_cons hBefore hAfter] at hRead
    cases hRead

theorem reads_kindReader (hReader : reader.Exact) {entries : List (List Char × List Char)} {room : Nat}
    {inner blanks rest rest' : List Char} {x : Location → Node} (hEntries : Entries true entries inner)
    (hNames : ∀ entry ∈ entries, StringBody entry.1) (hValues : ∀ entry ∈ entries, IsValue entry.2)
    (hBlanks : Blank blanks)
    (hRead : (kindReader reader).Reads room (blanks ++ ('{' :: (inner ++ ['}']) ++ rest)) x rest') :
    rest = rest' ∧ ∃ member, List.Forall₂ Called entries [member] ∧
      ∀ kind, Kind.ofName? member.1 = some kind → (payloadReader reader kind).Accepts member.2 := by
  simp only [List.cons_append, List.append_assoc, List.nil_append] at hRead
  replace hRead := reads_after_peek hBlanks (by decide) hRead
  obtain ⟨ofPlace, _, hInside, hRead⟩ := reads_bind hRead
  obtain ⟨_, _, hEnd, hRead⟩ := reads_bind hRead
  obtain ⟨rfl, rfl⟩ := reads_pure hRead
  obtain ⟨room, hInside⟩ := reads_nested hInside
  replace hInside := reads_after_take hInside
  obtain ⟨more, _, hMore, hInside⟩ := reads_bind hInside
  cases hEntries with
  | nil hInner =>
    unfold Reads at hMore
    rw [hasMember_nil hInner] at hMore
    cases hMore
    obtain ⟨_, _, h, -⟩ := reads_bind hInside
    exact absurd h not_reads_throw
  | @cons _ _ _ beforeColon _ _ payloadText _ _ hBefore hAfter hBeforeColon hAfterColon hRest =>
    have hBody : StringBody _ := hNames _ List.mem_cons_self
    have hValue : IsValue payloadText := hValues _ List.mem_cons_self
    unfold Reads at hMore
    simp only [List.append_assoc, List.cons_append] at hMore
    rw [hasMember_cons hBefore hAfter] at hMore
    cases hMore
    rw [if_pos rfl] at hInside
    obtain ⟨tag, _, hTag, hInside⟩ := reads_bind hInside
    obtain ⟨rfl, hCalled⟩ := reads_stringBody hBody hTag
    obtain ⟨_, _, hColon, hInside⟩ := reads_bind hInside
    obtain rfl := reads_colon hBeforeColon hColon
    extract_lets finish at hInside
    -- What comes after the contents fails unless it is the closing brace.
    have hFinish {ofPlace result : Location → Node} {text rest : List Char}
        (h : (finish ofPlace).Reads room text result rest) : (hasMember false).Reads room text false rest := by
      obtain ⟨more, _, hMore, h⟩ := reads_bind h
      split at h
      · obtain ⟨_, _, -, h⟩ := reads_bind h
        obtain ⟨_, _, h, -⟩ := reads_bind h
        exact absurd h not_reads_throw
      · obtain ⟨-, rfl⟩ := reads_pure h
        have hNone : more = false := Bool.eq_false_iff.mpr ‹_›
        rwa [hNone] at hMore
    have hDelimited := hRest.delimited rest
    split at hInside
    · rename_i kind hKind
      obtain ⟨contents, _, hContents, hInside⟩ := reads_bind hInside
      obtain rfl := exact_payloadReader hReader kind hValue hAfterColon hDelimited hContents
      obtain ⟨rfl, rfl⟩ := entries_eq_nil_of_reads hRest (hFinish hInside)
      refine ⟨reads_endObject hEnd, (tag, payloadText), .cons ⟨⟨_, hCalled⟩, rfl⟩ .nil, fun kind' hKind' => ?_⟩
      cases hKind.symm.trans hKind'
      exact ⟨_, _, _, _, _, hAfterColon, hDelimited, hContents⟩
    · rename_i hUnknown
      obtain ⟨payload, _, hContents, hInside⟩ := reads_bind hInside
      obtain rfl := exact_value hValue hAfterColon hDelimited hContents
      obtain ⟨_, _, hPure, hInside⟩ := reads_bind hInside
      obtain ⟨-, rfl⟩ := reads_pure hPure
      obtain ⟨rfl, rfl⟩ := entries_eq_nil_of_reads hRest (hFinish hInside)
      refine ⟨reads_endObject hEnd, (tag, payloadText), .cons ⟨⟨_, hCalled⟩, rfl⟩ .nil, fun kind hKind => ?_⟩
      cases hUnknown.symm.trans hKind

theorem exact_kindReader (hReader : reader.Exact) : (kindReader reader).Exact := by
  intro text room blanks rest x rest' hText hBlanks hRest hRead
  obtain ⟨c, tail, rfl, hBlank, -⟩ := hText.announces
  by_cases hBrace : c = '{'
  · subst hBrace
    obtain ⟨entries, inner, rfl, hEntries, hNames, hValues⟩ := hText.of_brace
    exact (reads_kindReader hReader hEntries hNames hValues hBlanks hRead).1
  · replace hRead := reads_after_peek hBlanks hBlank hRead
    split at hRead
    · rename_i hSome
      cases hSome
      exact absurd rfl hBrace
    · exact absurd hRead not_reads_mismatch

/-- The object with the tag has one member, and if the tag is that of a known kind, it has contents of that kind. -/
theorem accepts_kindReader (hReader : reader.Exact) {members : List (String × List Char)} {text : List Char}
    (hObject : IsObject members text) (hValues : ∀ member ∈ members, IsValue member.2)
    (h : (kindReader reader).Accepts text) : ∃ member, members = [member] ∧
      ∀ kind, Kind.ofName? member.1 = some kind → (payloadReader reader kind).Accepts member.2 := by
  obtain ⟨inner, rfl, hMembers⟩ := hObject
  obtain ⟨entries, hEntries, hNames, hBodies, hEntryValues⟩ := hMembers.exists_entries hValues
  obtain ⟨room, blanks, rest, x, rest', hBlanks, -, hRead⟩ := h
  obtain ⟨-, member, hCalled, hContents⟩ := reads_kindReader hReader hEntries hBodies hEntryValues hBlanks hRead
  exact ⟨member, (Reader.eq_of_called hNames hCalled).symm, hContents⟩

theorem exact_readerWithin (fuel : List Char) : (readerWithin fuel).Exact := by
  induction fuel with
  | nil =>
    intro _ _ _ _ _ _ _ _ _ hRead
    exact absurd hRead not_reads_throw
  | cons _ fuel ih =>
    refine Exact.bind (Record.exact_read ?_ "Node") fun h => (reads_pure h).2
    exact ⟨exact_kindReader ih, Span.exact_reader, exact_natural, exact_natural, trivial⟩

end Node

end Listfile
