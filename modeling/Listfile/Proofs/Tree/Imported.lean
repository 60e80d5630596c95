import Listfile.Proofs.Json.Gives
import Listfile.Proofs.Tree.ReadBack
/-! # Trees that were read

Whatever text a tree was read from, the numbers of its places fit, and a node in it is of unknown kind only if its tag
is not the name of a kind.
-/
namespace Listfile
set_option autoImplicit false

open Json (Reader Record)
open Json.Reader

theorem Span.gives_reader {span : Span} (h : Span.reader.Gives span) : Json.Fits span.start ∧ Json.Fits span.stop := by
  obtain ⟨⟨start, stop, _⟩, hRead, h⟩ := gives_bind h
  obtain rfl := gives_pure h
  obtain ⟨hStart, hStop, -⟩ := Record.given_of_read hRead
  exact ⟨gives_natural (Record.gives_of_required hStart), gives_natural (Record.gives_of_required hStop)⟩

namespace Node

section payload

variable {reader : Reader Node} (hReader : ∀ {node}, reader.Gives node → node.Everywhere Sound) {place : Location}
  (hPlace : place.Fits)

include hReader hPlace

theorem sound_of_payload {kind : Kind} {ofPlace : Location → Node} (h : (payloadReader reader kind).Gives ofPlace) :
    (ofPlace place).Everywhere Sound := by
  have hChild {child : Node} (h : reader.Gives child ∨ none = some child) : child.Everywhere Sound :=
    hReader (Record.gives_of_required h)
  have hChildren {children : List Node} (h : (Reader.list reader).Gives children ∨ none = some children) :
      ∀ child ∈ children, child.Everywhere Sound :=
    fun child hMem => hReader (gives_list (Record.gives_of_required h) child hMem)
  cases kind with
  | toplevel =>
    obtain ⟨⟨statements, _⟩, hRead, h⟩ := gives_bind h
    obtain rfl := gives_pure h
    exact everywhere_toplevel.mpr ⟨hPlace, hChildren (Record.given_of_read hRead).1⟩
  | whileLoop | foreachLoop | functionDefinition | macroDefinition =>
    obtain ⟨⟨header, body, footer, _⟩, hRead, h⟩ := gives_bind h
    obtain rfl := gives_pure h
    obtain ⟨hHeader, hBody, hFooter, -⟩ := Record.given_of_read hRead
    exact everywhere_block.mpr ⟨hPlace, hChild hHeader, hChildren hBody, hChild hFooter⟩
  | conditional =>
    obtain ⟨⟨ifClause, elseifs, elseClause, footer, _⟩, hRead, h⟩ := gives_bind h
    obtain rfl := gives_pure h
    obtain ⟨hIf, hElseifs, hElse, hFooter, -⟩ := Record.given_of_read hRead
    refine everywhere_conditional.mpr ⟨hPlace, hChild hIf, hChildren hElseifs, ?_, hChild hFooter⟩
    rcases hElse with hElse | hAbsent
    · exact fun child hMem => hReader (gives_optional hElse child hMem)
    · cases hAbsent
      intro child hMem
      cases hMem
  | ifClause | elseifClause | elseClause =>
    obtain ⟨⟨header, body, _⟩, hRead, h⟩ := gives_bind h
    obtain rfl := gives_pure h
    obtain ⟨hHeader, hBody, -⟩ := Record.given_of_read hRead
    exact everywhere_clause.mpr ⟨hPlace, hChild hHeader, hChildren hBody⟩
  | call =>
    obtain ⟨⟨name, arguments, _⟩, hRead, h⟩ := gives_bind h
    obtain rfl := gives_pure h
    obtain ⟨-, hArguments, -⟩ := Record.given_of_read hRead
    exact everywhere_call.mpr ⟨hPlace, hChildren hArguments⟩
  | inclusion =>
    obtain ⟨_, -, h⟩ := gives_bind h
    obtain rfl := gives_pure h
    exact (everywhere_leaf rfl).mpr hPlace
  | word =>
    obtain ⟨_, -, h⟩ := gives_bind h
    obtain rfl := gives_pure h
    exact (everywhere_leaf rfl).mpr hPlace

theorem sound_of_kind {ofPlace : Location → Node} (h : (kindReader reader).Gives ofPlace) :
    (ofPlace place).Everywhere Sound := by
  unfold kindReader at h
  obtain ⟨_, -, h⟩ := gives_bind h
  split at h
  · obtain ⟨result, hResult, h⟩ := gives_bind h
    obtain ⟨-, -, h⟩ := gives_bind h
    obtain rfl := gives_pure h
    obtain ⟨-, -, h⟩ := gives_bind (gives_nested hResult)
    obtain ⟨_, -, h⟩ := gives_bind h
    split at h
    · obtain ⟨tag, -, h⟩ := gives_bind h
      obtain ⟨-, -, h⟩ := gives_bind h
      extract_lets finish at h
      -- What comes after the contents fails or gives them unchanged.
      have hFinish {ofPlace : Location → Node} (h : (finish ofPlace).Gives result) : ofPlace = result := by
        obtain ⟨_, -, h⟩ := gives_bind h
        split at h
        · obtain ⟨_, -, h⟩ := gives_bind h
          obtain ⟨_, h, -⟩ := gives_bind h
          exact absurd h not_gives_throw
        · exact gives_pure h
      split at h
      · obtain ⟨ofPlace, hPayload, h⟩ := gives_bind h
        rw [← hFinish h]
        exact sound_of_payload hReader hPlace hPayload
      · rename_i hUnknown
        obtain ⟨payload, hPayload, h⟩ := gives_bind h
        obtain ⟨ofPlace, hOfPlace, h⟩ := gives_bind h
        rw [← hFinish h, ← gives_pure hOfPlace]
        exact (everywhere_leaf rfl).mpr ⟨hPlace, hUnknown, gives_value hPayload⟩
    · obtain ⟨_, h, -⟩ := gives_bind h
      exact absurd h not_gives_throw
  · exact absurd h not_gives_mismatch

end payload

theorem sound_of_readerWithin {fuel : List Char} {node : Node} (h : (readerWithin fuel).Gives node) :
    node.Everywhere Sound := by
  induction fuel generalizing node with
  | nil => exact absurd h not_gives_throw
  | cons c fuel ih =>
    rw [readerWithin] at h
    obtain ⟨⟨ofPlace, span, line, column, _⟩, hRead, h⟩ := gives_bind h
    obtain rfl := gives_pure h
    obtain ⟨hKind, hSpan, hLine, hColumn, -⟩ := Record.given_of_read hRead
    obtain ⟨hStart, hStop⟩ := Span.gives_reader (Record.gives_of_required hSpan)
    have hLine := gives_natural (Record.gives_of_required hLine)
    have hColumn := gives_natural (Record.gives_of_required hColumn)
    exact sound_of_kind ih ⟨hStart, hStop, hLine, hColumn⟩ (Record.gives_of_required hKind)

theorem sound_of_ofJson {text : String} {root : Node} (h : ofJson text = .ok root) : root.Everywhere Sound := by
  rw [ofJson, runUnlimited, run] at h
  cases hRead : reader text.length text.toList with
  | error error =>
    rw [hRead] at h
    cases h
  | ok result =>
    obtain ⟨node, rest⟩ := result
    rw [hRead] at h
    simp only [bind, Except.bind] at h
    split at h
    · obtain ⟨_, -, hNode⟩ := gives_bind ⟨_, _, _, hRead⟩
      cases h
      exact sound_of_readerWithin hNode
    · cases h

end Node
end Listfile
