import Listfile.Tree.Outline
/-! # The grammar of scripts

The grammar is over invocations, and its productions are the constructors of derivations. A derivation has the
sequence of its invocations, and the nodes that it stands for. The grammar is unambiguous: no sequence of invocations
has two derivations.
-/
namespace Listfile
set_option autoImplicit false

namespace Keyword

def name : Keyword → String
  | openConditional => "if"
  | openBlock .whileLoop => "while"
  | openBlock .foreachLoop => "foreach"
  | openBlock .functionDefinition => "function"
  | openBlock .macroDefinition => "macro"
  | inclusion => "include"
  | .terminator closing => closing.name

theorem ofName?_name (keyword : Keyword) : ofName? keyword.name = some keyword := by
  rcases keyword with _ | (_ | _ | _ | _) | _ | (_ | _ | _ | (_ | _ | _ | _)) <;> decide +kernel

theorem lowerCase_name (keyword : Keyword) : lowerCase keyword.name = keyword.name := by
  rcases keyword with _ | (_ | _ | _ | _) | _ | (_ | _ | _ | (_ | _ | _ | _)) <;> decide +kernel

theorem ofName?_eq_some {name : String} {keyword : Keyword} :
    ofName? name = some keyword ↔ sameCommand name keyword.name := by
  rw [sameCommand, beq_iff_eq, lowerCase_name]
  constructor
  · intro h
    unfold ofName? at h
    split at h <;> cases h <;> assumption
  · intro h
    rw [← ofName?_name keyword, ofName?, ofName?, h, lowerCase_name]

theorem ofName?_eq_none {name : String} :
    ofName? name = none ↔ ∀ keyword : Keyword, ¬sameCommand name keyword.name := by
  rw [Option.eq_none_iff_forall_ne_some]
  exact forall_congr' fun keyword => not_congr ofName?_eq_some

end Keyword

namespace Invocation

def Names (call : Invocation) (keyword : Keyword) : Prop := sameCommand call.name.text keyword.name

theorem Names.unique {call : Invocation} {a b : Keyword} (ha : call.Names a) (hb : call.Names b) : a = b := by
  have hEq := (Keyword.ofName?_eq_some.mpr ha).symm.trans (Keyword.ofName?_eq_some.mpr hb)
  exact Option.some.inj hEq

/-- The texts of the arguments, without their delimiters. -/
def texts (call : Invocation) : List String :=
  call.arguments.map fun token =>
    match token.kind with
    | .quoted => withoutDelimiters 1 token.text
    | .bracket => withoutDelimiters 2 token.text
    | _ => token.text

/-- The node of an arm of a conditional, which reaches from its header to the last of its statements. -/
def clause (lines : LineIndex) (form : ClauseForm) (header : Invocation) (body : List Node) : Node :=
  let span := body.getLast?.elim header.span fun last => header.span.merge last.span
  .clause (lines.locate span) form (header.call lines) body

end Invocation

/-- What the grammar is about: statements, their sequences, and the parts of a conditional. -/
inductive Phrase where
  | body
  | statement
  | elseifs
  | elseArm

inductive Derivation : Phrase → Type where
  | empty : Derivation .body
  | append (first : Derivation .statement) (rest : Derivation .body) : Derivation .body
  | plain (call : Invocation) (hCall : ∀ keyword, ¬call.Names keyword) : Derivation .statement
  | inclusion (call : Invocation) (hCall : call.Names .inclusion) (hArguments : call.arguments ≠ []) :
    Derivation .statement
  | block (form : BlockForm) (opener : Invocation) (hOpener : opener.Names (.openBlock form)) (body : Derivation .body)
    (closer : Invocation) (hCloser : closer.Names (.terminator (.endBlock form))) : Derivation .statement
  | conditional (opener : Invocation) (hOpener : opener.Names .openConditional) (body : Derivation .body)
    (elseifs : Derivation .elseifs) (elseArm : Derivation .elseArm) (closer : Invocation)
    (hCloser : closer.Names (.terminator .endConditional)) : Derivation .statement
  | noElseif : Derivation .elseifs
  | elseif (header : Invocation) (hHeader : header.Names (.terminator .elseifBranch)) (body : Derivation .body)
    (rest : Derivation .elseifs) : Derivation .elseifs
  | noElse : Derivation .elseArm
  | elseBranch (header : Invocation) (hHeader : header.Names (.terminator .elseBranch)) (body : Derivation .body) :
    Derivation .elseArm

namespace Derivation

def calls : {phrase : Phrase} → Derivation phrase → List Invocation
  | _, empty => []
  | _, append first rest => first.calls ++ rest.calls
  | _, plain call _ => [call]
  | _, inclusion call _ _ => [call]
  | _, block _ opener _ body closer _ => opener :: (body.calls ++ [closer])
  | _, conditional opener _ body elseifs elseArm closer _ =>
    opener :: (body.calls ++ (elseifs.calls ++ (elseArm.calls ++ [closer])))
  | _, noElseif => []
  | _, elseif header _ body rest => header :: (body.calls ++ rest.calls)
  | _, noElse => []
  | _, elseBranch header _ body => header :: body.calls

/-- The nodes of a derivation: one for each statement and for each arm after the first of a conditional. -/
def nodes (lines : LineIndex) : {phrase : Phrase} → Derivation phrase → List Node
  | _, empty => []
  | _, append first rest => first.nodes lines ++ rest.nodes lines
  | _, plain call _ => [call.call lines]
  | _, inclusion call _ _ => [.inclusion (lines.locate call.span) (call.texts.headD "") call.texts.tail]
  | _, block form opener _ body closer _ =>
    [.block (lines.locate (opener.span.merge closer.span)) form (opener.call lines) (body.nodes lines)
      (closer.call lines)]
  | _, conditional opener _ body elseifs elseArm closer _ =>
    let ifClause := opener.clause lines .ifClause (body.nodes lines)
    [.conditional (lines.locate (ifClause.span.merge closer.span)) ifClause (elseifs.nodes lines)
      (elseArm.nodes lines).head? (closer.call lines)]
  | _, noElseif => []
  | _, elseif header _ body rest =>
    header.clause lines .elseifClause (body.nodes lines) :: rest.nodes lines
  | _, noElse => []
  | _, elseBranch header _ body => [header.clause lines .elseClause (body.nodes lines)]

/-! ## The grammar is unambiguous -/

/-- Whether a sequence is empty or starts with a terminator, other than the given one if there is one. -/
def Ends (other : Option Terminator) (rest : List Invocation) : Prop :=
  ∀ call ∈ rest.head?, ∃ terminator, call.Names (.terminator terminator) ∧ some terminator ≠ other

/-- Whether what follows a phrase cannot belong to it. -/
def Follows : Phrase → List Invocation → Prop
  | .body, rest => Ends none rest
  | .statement, _ => True
  | .elseifs, rest => Ends (some .elseifBranch) rest
  | .elseArm, rest => Ends (some .elseBranch) rest

theorem ends_cons {call : Invocation} {terminator : Terminator} {other : Option Terminator}
    (h : call.Names (.terminator terminator)) (hNe : some terminator ≠ other) (rest : List Invocation) :
    Ends other (call :: rest) := by
  intro first hFirst
  cases hFirst
  exact ⟨terminator, h, hNe⟩

theorem Ends.not_names {call : Invocation} {terminator : Terminator} {rest : List Invocation}
    (h : Ends (some terminator) (call :: rest)) : ¬call.Names (.terminator terminator) := by
  intro hCall
  obtain ⟨terminator', hTerminator, hNe⟩ := h call rfl
  cases hCall.unique hTerminator
  exact hNe rfl

theorem Ends.body {other : Option Terminator} {rest : List Invocation} (h : Ends other rest) : Ends none rest := by
  intro first hFirst
  obtain ⟨terminator, hTerminator, -⟩ := h first hFirst
  exact ⟨terminator, hTerminator, by simp⟩

/-- The keyword that a statement starts with, if it is not a plain call. -/
def keyword? : Derivation .statement → Option Keyword
  | plain .. => none
  | inclusion .. => some .inclusion
  | block form .. => some (.openBlock form)
  | conditional .. => some .openConditional

theorem ofName?_head (d : Derivation .statement) :
    ∃ first others, d.calls = first :: others ∧ Keyword.ofName? first.name.text = d.keyword? := by
  cases d with
  | plain call hCall => exact ⟨call, _, rfl, Keyword.ofName?_eq_none.mpr hCall⟩
  | inclusion call hCall => exact ⟨call, _, rfl, Keyword.ofName?_eq_some.mpr hCall⟩
  | block form opener hOpener => exact ⟨opener, _, rfl, Keyword.ofName?_eq_some.mpr hOpener⟩
  | conditional opener hOpener => exact ⟨opener, _, rfl, Keyword.ofName?_eq_some.mpr hOpener⟩

/-- The first invocation of a statement decides how it was made. -/
theorem keyword?_eq {d d' : Derivation .statement} {rest rest' : List Invocation}
    (h : d.calls ++ rest = d'.calls ++ rest') : d.keyword? = d'.keyword? := by
  obtain ⟨first, others, hCalls, hKeyword⟩ := ofName?_head d
  obtain ⟨first', others', hCalls', hKeyword'⟩ := ofName?_head d'
  rw [hCalls, hCalls'] at h
  obtain ⟨rfl, -⟩ := List.cons.inj h
  rw [← hKeyword, ← hKeyword']

/-- No statement starts with a terminator. -/
theorem not_ends_statement (d : Derivation .statement) (rest : List Invocation) : ¬Ends none (d.calls ++ rest) := by
  obtain ⟨first, others, hCalls, hKeyword⟩ := ofName?_head d
  intro hEnds
  rw [hCalls] at hEnds
  obtain ⟨terminator, hFirst, -⟩ := hEnds first rfl
  rw [Keyword.ofName?_eq_some.mpr hFirst] at hKeyword
  cases d <;> cases hKeyword

theorem ends_elseifs (d : Derivation .elseifs) {rest : List Invocation} (h : Ends none rest) :
    Ends none (d.calls ++ rest) := by
  cases d with
  | noElseif => exact h
  | elseif header hHeader => exact ends_cons hHeader (by simp) _

theorem ends_elseArm (d : Derivation .elseArm) {other : Option Terminator} (hOther : some .elseBranch ≠ other)
    {rest : List Invocation} (h : Ends other rest) : Ends other (d.calls ++ rest) := by
  cases d with
  | noElse => exact h
  | elseBranch header hHeader => exact ends_cons hHeader hOther _

/-- A sequence of invocations is that of one derivation at most. -/
theorem unique_of_calls {phrase : Phrase} (d d' : Derivation phrase) {rest rest' : List Invocation}
    (hRest : Follows phrase rest) (hRest' : Follows phrase rest') (h : d.calls ++ rest = d'.calls ++ rest') :
    d = d' ∧ rest = rest' := by
  induction d generalizing rest rest' with
  | empty =>
    cases d' with
    | empty => exact ⟨rfl, h⟩
    -- Where only one of the two goes on, what follows the other would have to begin like a further part of it.
    | append first others =>
      rw [calls, calls, List.nil_append, List.append_assoc] at h
      exact absurd (h ▸ hRest) (not_ends_statement first _)
  | append first others ihFirst ihOthers =>
    cases d' with
    | empty =>
      rw [calls, calls, List.nil_append, List.append_assoc] at h
      exact absurd (h ▸ hRest') (not_ends_statement first _)
    | append first' others' =>
      rw [calls, calls, List.append_assoc, List.append_assoc] at h
      obtain ⟨rfl, hOthers⟩ := ihFirst first' trivial trivial h
      obtain ⟨rfl, rfl⟩ := ihOthers others' hRest hRest' hOthers
      exact ⟨rfl, rfl⟩
  | plain call hCall =>
    have hKeyword := keyword?_eq h
    cases d' with
    | plain =>
      cases h
      exact ⟨rfl, rfl⟩
    | _ => cases hKeyword
  | inclusion call hCall hArguments =>
    have hKeyword := keyword?_eq h
    cases d' with
    | inclusion =>
      cases h
      exact ⟨rfl, rfl⟩
    | _ => cases hKeyword
  | block form opener hOpener body closer hCloser ih =>
    have hKeyword := keyword?_eq h
    cases d' with
    | block form' opener' hOpener' body' closer' hCloser' =>
      cases hKeyword
      simp only [calls, List.cons_append, List.append_assoc, List.cons.injEq] at h
      obtain ⟨rfl, h⟩ := h
      obtain ⟨rfl, hEq⟩ := ih body' (ends_cons hCloser (by simp) _) (ends_cons hCloser' (by simp) _) h
      cases hEq
      exact ⟨rfl, rfl⟩
    | _ => cases hKeyword
  | conditional opener hOpener body elseifs elseArm closer hCloser ihBody ihElseifs ihElseArm =>
    have hKeyword := keyword?_eq h
    cases d' with
    | conditional opener' hOpener' body' elseifs' elseArm' closer' hCloser' =>
      simp only [calls, List.cons_append, List.append_assoc, List.cons.injEq] at h
      obtain ⟨rfl, h⟩ := h
      have hEnd (other : Option Terminator) (h : some .endConditional ≠ other) := ends_cons hCloser h rest
      have hEnd' (other : Option Terminator) (h : some .endConditional ≠ other) := ends_cons hCloser' h rest'
      have hElse (other : Option Terminator) (h : some .endConditional ≠ other ∧ some .elseBranch ≠ other) :=
        ends_elseArm elseArm h.2 (hEnd other h.1)
      have hElse' (other : Option Terminator) (h : some .endConditional ≠ other ∧ some .elseBranch ≠ other) :=
        ends_elseArm elseArm' h.2 (hEnd' other h.1)
      obtain ⟨rfl, hElseifs⟩ := ihBody body' (ends_elseifs elseifs (hElse none (by simp)))
        (ends_elseifs elseifs' (hElse' none (by simp))) h
      obtain ⟨rfl, hElseArm⟩ := ihElseifs elseifs' (hElse _ (by simp)) (hElse' _ (by simp)) hElseifs
      obtain ⟨rfl, hEq⟩ := ihElseArm elseArm' (hEnd _ (by simp)) (hEnd' _ (by simp)) hElseArm
      cases hEq
      exact ⟨rfl, rfl⟩
    | _ => cases hKeyword
  | noElseif =>
    cases d' with
    | noElseif => exact ⟨rfl, h⟩
    | elseif header hHeader =>
      rw [calls, List.nil_append] at h
      exact absurd hHeader (Ends.not_names (h ▸ hRest))
  | elseif header hHeader body others ihBody ihOthers =>
    cases d' with
    | noElseif =>
      rw [calls, calls, List.nil_append] at h
      exact absurd hHeader (Ends.not_names (h ▸ hRest'))
    | elseif header' hHeader' body' others' =>
      simp only [calls, List.cons_append, List.append_assoc, List.cons.injEq] at h
      obtain ⟨rfl, h⟩ := h
      obtain ⟨rfl, hOthers⟩ := ihBody body' (ends_elseifs others hRest.body) (ends_elseifs others' hRest'.body) h
      obtain ⟨rfl, rfl⟩ := ihOthers others' hRest hRest' hOthers
      exact ⟨rfl, rfl⟩
  | noElse =>
    cases d' with
    | noElse => exact ⟨rfl, h⟩
    | elseBranch header hHeader =>
      rw [calls, List.nil_append] at h
      exact absurd hHeader (Ends.not_names (h ▸ hRest))
  | elseBranch header hHeader body ih =>
    cases d' with
    | noElse =>
      rw [calls, calls, List.nil_append] at h
      exact absurd hHeader (Ends.not_names (h ▸ hRest'))
    | elseBranch header' hHeader' body' =>
      simp only [calls, List.cons_append, List.cons.injEq] at h
      obtain ⟨rfl, h⟩ := h
      obtain ⟨rfl, rfl⟩ := ih body' hRest.body hRest'.body h
      exact ⟨rfl, rfl⟩

end Derivation
end Listfile
