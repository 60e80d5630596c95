import Listfile.Proofs.Tree.Fields
import Listfile.Proofs.Grammar.Invocations
import Listfile.Tree.Outline
/-! # Scripts without their layout

The canonical form of what is read has nothing of where it stands, and the names of commands in lower case. Reading
goes step by step alike on canonical tokens, so that the canonical form of a tree, or of the error, is a function of
that of the tokens.
-/
namespace Listfile
set_option autoImplicit false

/-! ## Names of commands -/

theorem toLower_of_not_upper {c : Char} (h : ¬(c.val ≥ 65 ∧ c.val ≤ 90)) : c.toLower = c := dif_neg h

theorem toLower_of_upper {c : Char} (h : c.val ≥ 65 ∧ c.val ≤ 90) : c.toLower.val = c.val + 32 :=
  congrArg Char.val (dif_pos h)

theorem toLower_toLower (c : Char) : c.toLower.toLower = c.toLower := by
  by_cases h : c.val ≥ 65 ∧ c.val ≤ 90
  · apply toLower_of_not_upper
    rintro ⟨-, hLe⟩
    obtain ⟨hFrom, hTo⟩ := h
    rw [toLower_of_upper ⟨hFrom, hTo⟩, UInt32.le_iff_toNat_le, UInt32.toNat_add] at hLe
    rw [ge_iff_le, UInt32.le_iff_toNat_le] at hFrom
    rw [UInt32.le_iff_toNat_le] at hTo
    simp only [UInt32.reduceToNat] at hFrom hTo hLe
    omega
  · rw [toLower_of_not_upper h, toLower_of_not_upper h]

theorem lowerCase_lowerCase (name : String) : lowerCase (lowerCase name) = lowerCase name := by
  rw [lowerCase, lowerCase, String.toList_ofList, List.map_map]
  exact congrArg String.ofList (List.map_congr_left fun c _ => toLower_toLower c)

theorem sameCommand_lowerCase (name command : String) :
    sameCommand (lowerCase name) command = sameCommand name command := by
  rw [sameCommand, lowerCase_lowerCase, sameCommand]

theorem Keyword.ofName?_lowerCase (name : String) : ofName? (lowerCase name) = ofName? name := by
  rw [ofName?, ofName?, lowerCase_lowerCase]

/-! ## Canonical forms -/

/-- The place of the start of a text. -/
def Location.start : Location := ⟨.origin, ⟨1, 1⟩⟩

/-- The tree without its places, with the names of calls in lower case. -/
def Node.canonical (node : Node) : Node := node.mapFields { place := fun _ => .start, command := lowerCase }

def ParseError.canonical : ParseError → ParseError
  | unexpectedToken expected found _ => unexpectedToken expected found .origin
  | unexpectedEnd _ => unexpectedEnd .origin
  | unclosedBlock opener terminator _ => unclosedBlock (lowerCase opener) terminator .origin
  | unmatchedTerminator terminator _ => unmatchedTerminator terminator .origin
  | emptyInclusion _ => emptyInclusion .origin

/-- A result, or an error in its canonical form. -/
def canonicalResult {α β : Type} (f : α → β) : Except ParseError α → Except ParseError β
  | .ok value => .ok (f value)
  | .error error => .error error.canonical

namespace Token

def placeless (token : Token) : Token := { token with span := .origin }

def lowered (token : Token) : Token := ⟨token.kind, .origin, lowerCase token.text⟩

/-- How many more parentheses are open after a token than before it. -/
def Kind.nesting : Kind → Int
  | leftParen => 1
  | rightParen => -1
  | _ => 0

/-- The kinds and texts of tokens that come where `depth` parentheses are open. Where the name of a command stands,
outside of all parentheses and before an opening one, the text is in lower case. -/
def canonical (depth : Int) : List Token → List Token
  | [] => []
  | token :: rest =>
    let isName := depth ≤ 0 ∧ token.kind = .unquoted ∧ rest.head?.map Token.kind = some .leftParen
    (if isName then token.lowered else token.placeless) :: canonical (depth + token.kind.nesting) rest

end Token

namespace Invocation

def canonical (call : Invocation) : Invocation :=
  ⟨call.name.lowered, call.opening.placeless, call.arguments.map Token.placeless, call.closing.placeless⟩

def Ending.canonical : Ending → Ending
  | complete _ => complete .origin
  | refused error => refused error.canonical

end Invocation

/-! ## Invocations -/

namespace Token

theorem canonical_inside {depth : Int} (h : 0 < depth) (token : Token) (rest : List Token) :
    canonical depth (token :: rest) = token.placeless :: canonical (depth + token.kind.nesting) rest := by
  rw [canonical, if_neg (by omega)]

theorem canonical_name {name opening : Token} (hName : name.kind = .unquoted) (hOpening : opening.kind = .leftParen)
    (rest : List Token) :
    canonical 0 (name :: opening :: rest) = name.lowered :: opening.placeless :: canonical 1 rest := by
  rw [canonical, if_pos ⟨Int.le_refl 0, hName, congrArg some hOpening⟩, canonical, if_neg (by simp [hOpening]), hName,
    hOpening]
  rfl

theorem canonical_cons (depth : Int) (token : Token) (rest : List Token) :
    ∃ token', canonical depth (token :: rest) = token' :: canonical (depth + token.kind.nesting) rest ∧
      token'.kind = token.kind ∧ token'.span = .origin := by
  refine ⟨_, rfl, ?_⟩
  split <;> exact ⟨rfl, rfl⟩

end Token

namespace Invocation

theorem nestingAfter_placeless (nesting : Nat) (token : Token) :
    nestingAfter nesting token.placeless = canonicalResult id (nestingAfter nesting token) := by
  obtain ⟨kind, span, text⟩ := token
  cases kind <;> cases nesting <;> rfl

theorem depth_of_nestingAfter {nesting inner : Nat} {token : Token}
    (h : nestingAfter nesting token = .ok (some inner)) : (nesting + 1 : Int) + token.kind.nesting = inner + 1 := by
  obtain ⟨kind, span, text⟩ := token
  cases kind <;> cases nesting <;> cases h <;> simp only [Token.Kind.nesting] <;> omega

/-- Arguments are read where at least one parenthesis is open, so that no name of a command is among them. -/
theorem readArguments_canonical (nesting : Nat) (tokens : List Token) :
    readArguments nesting (Token.canonical (nesting + 1) tokens) = canonicalResult
      (fun (arguments, closing, rest) =>
        (arguments.map Token.placeless, Token.placeless closing, Token.canonical 0 rest))
      (readArguments nesting tokens) := by
  induction tokens generalizing nesting with
  | nil => rfl
  | cons token rest ih =>
    rw [Token.canonical_inside (by omega), readArguments, nestingAfter_placeless, readArguments]
    cases hStep : nestingAfter nesting token with
    | error error => rfl
    | ok after =>
      cases after with
      | none =>
        obtain ⟨hKind, rfl⟩ := nestingAfter_eq_none.mp hStep
        rw [hKind]
        rfl
      | some inner =>
        rw [depth_of_nestingAfter hStep]
        simp only [canonicalResult, id, ih]
        cases readArguments inner rest <;> rfl

theorem read_canonical (name : Token) (rest : List Token) :
    ∃ name' rest', Token.canonical 0 (name :: rest) = name' :: rest' ∧ name'.kind = name.kind ∧
      name'.span = .origin ∧
      read name' rest' = canonicalResult (fun (call, rest) => (canonical call, Token.canonical 0 rest))
        (read name rest) := by
  obtain ⟨name', hTokens, hKind, hSpan⟩ := Token.canonical_cons 0 name rest
  by_cases hName : name.kind = .unquoted
  · cases rest with
    | nil =>
      refine ⟨name', [], hTokens, hKind, hSpan, ?_⟩
      simp only [read, hKind, hName, if_true]
      rfl
    | cons opening rest =>
      by_cases hOpening : opening.kind = .leftParen
      · refine ⟨_, _, Token.canonical_name hName hOpening rest, rfl, rfl, ?_⟩
        have hArguments := readArguments_canonical 0 rest
        simp only [read, Token.lowered, Token.placeless, hName, hOpening, if_true]
        rw [show (1 : Int) = ((0 : Nat) : Int) + 1 from rfl, hArguments]
        cases readArguments 0 rest with
        | error error => rfl
        | ok result => simp [canonicalResult, canonical, Token.lowered, Token.placeless, hName, hOpening]
      · rw [hName] at hTokens
        obtain ⟨opening', hRest, hKind', hSpan'⟩ := Token.canonical_cons 0 opening rest
        refine ⟨name', _, hTokens, hKind, hSpan, ?_⟩
        rw [show (0 : Int) + Token.Kind.unquoted.nesting = 0 from rfl, hRest]
        simp only [read, hKind, hName, hKind', hOpening, hSpan', if_true, if_false]
        rfl
  · refine ⟨name', _, hTokens, hKind, hSpan, ?_⟩
    simp only [read, hKind, hName, hSpan, if_false]
    rfl

theorem all_canonical (tokens : List Token) : all (Token.canonical 0 tokens) =
    ((all tokens).1.map canonical, (all tokens).2.canonical) := by
  fun_induction all tokens with
  | case1 =>
    rw [Token.canonical, all]
    rfl
  | case2 token rest hKind =>
    obtain ⟨token', hTokens, hKind', hSpan⟩ := Token.canonical_cons 0 token rest
    rw [hTokens, all, if_pos (hKind'.trans hKind), hSpan]
    rfl
  | case3 token rest hKind error hRead =>
    obtain ⟨token', rest', hTokens, hKind', -, hRead'⟩ := read_canonical token rest
    rw [hRead] at hRead'
    rw [hTokens, all, if_neg (hKind' ▸ hKind)]
    split
    · rename_i hError
      cases hError.symm.trans hRead'
      rfl
    · rename_i hOk
      cases hOk.symm.trans hRead'
  | case4 token rest hKind call rest' hRead calls ending hAll ih =>
    obtain ⟨token', tokens', hTokens, hKind', -, hRead'⟩ := read_canonical token rest
    rw [hRead] at hRead'
    rw [hTokens, all, if_neg (hKind' ▸ hKind)]
    split
    · rename_i hError
      cases hError.symm.trans hRead'
    · rename_i hOk
      cases hOk.symm.trans hRead'
      rw [ih, hAll]
      rfl

end Invocation

/-! ## Nodes -/

/-- The line index of a text without lines to count. -/
def LineIndex.blank : LineIndex := .ofSource ""

theorem LineIndex.locate_blank : blank.locate .origin = .start := by decide +kernel

namespace Node

theorem span_canonical (node : Node) : node.canonical.span = .origin := by
  rw [span, canonical, place_mapFields]
  rfl

theorem canonical_toplevel (place : Location) (statements : List Node) :
    (toplevel place statements).canonical = toplevel .start (statements.map canonical) := by
  rw [canonical, mapFields, mapFieldsAll_eq]
  rfl

theorem canonical_block (place : Location) (form : BlockForm) (header : Node) (body : List Node) (footer : Node) :
    (block place form header body footer).canonical =
      block .start form header.canonical (body.map canonical) footer.canonical := by
  rw [canonical, mapFields, mapFieldsAll_eq]
  rfl

theorem canonical_conditional (place : Location) (ifClause : Node) (elseifs : List Node) (elseClause : Option Node)
    (footer : Node) : (conditional place ifClause elseifs elseClause footer).canonical =
      conditional .start ifClause.canonical (elseifs.map canonical) (elseClause.map canonical) footer.canonical := by
  rw [canonical, mapFields, mapFieldsAll_eq, mapFieldsOption_eq]
  rfl

theorem canonical_clause (place : Location) (form : ClauseForm) (header : Node) (body : List Node) :
    (clause place form header body).canonical = clause .start form header.canonical (body.map canonical) := by
  rw [canonical, mapFields, mapFieldsAll_eq]
  rfl

theorem canonical_call (place : Location) (name : String) (arguments : List Node) :
    (call place name arguments).canonical = call .start (lowerCase name) (arguments.map canonical) := by
  rw [canonical, mapFields, mapFieldsAll_eq]
  rfl

end Node

theorem merge_origin : Span.origin.merge .origin = .origin := rfl

variable (lines : LineIndex)

theorem Token.word_placeless (token : Token) : token.placeless.word .blank = (token.word lines).canonical := by
  obtain ⟨kind, span, text⟩ := token
  cases kind <;> simp only [Token.word, Token.placeless, LineIndex.locate_blank] <;> rfl

namespace Invocation

theorem span_canonical (call : Invocation) : call.canonical.span = .origin := rfl

theorem words_canonical (call : Invocation) :
    call.canonical.words .blank = (call.words lines).map Node.canonical := by
  rw [words, canonical, words, List.map_map, List.map_map]
  exact List.map_congr_left fun token _ => token.word_placeless lines

theorem call_canonical (call : Invocation) : call.canonical.call .blank = (call.call lines).canonical := by
  rw [Invocation.call, words_canonical lines, span_canonical, LineIndex.locate_blank, Invocation.call,
    Node.canonical_call]
  rfl

theorem inclusion_canonical (call : Invocation) :
    call.canonical.inclusion .blank = canonicalResult Node.canonical (call.inclusion lines) := by
  have hLabels : (call.canonical.words .blank).filterMap Node.label? = (call.words lines).filterMap Node.label? := by
    rw [words_canonical lines, List.filterMap_map]
    refine List.filterMap_congr fun node hMem => ?_
    obtain ⟨token, -, rfl⟩ := List.mem_map.mp hMem
    obtain ⟨kind, span, text⟩ := token
    cases kind <;> rfl
  rw [inclusion, hLabels, span_canonical, LineIndex.locate_blank, inclusion]
  cases (call.words lines).filterMap Node.label? <;> rfl

end Invocation

theorem Node.ofArm_canonical (form : ClauseForm) (header : Node) (reversed : List Node) :
    Node.ofArm .blank form header.canonical (reversed.map Node.canonical) =
      (Node.ofArm lines form header reversed).canonical := by
  unfold Node.ofArm
  cases reversed with
  | nil => simp only [List.map_nil, span_canonical, LineIndex.locate_blank, canonical_clause, List.reverse_nil]
  | cons last rest =>
    simp only [List.map_cons, span_canonical, merge_origin, LineIndex.locate_blank, canonical_clause, List.map_reverse]

/-! ## Outlines -/

def OpenForm.canonical : OpenForm → OpenForm
  | block form => block form
  | ifArm => ifArm
  | elseifArm ifClause elseifs => elseifArm ifClause.canonical (elseifs.map Node.canonical)
  | elseArm ifClause elseifs => elseArm ifClause.canonical (elseifs.map Node.canonical)

namespace OpenBlock

def canonical (block : OpenBlock) : OpenBlock :=
  ⟨block.opener.canonical, block.form.canonical, block.reversed.map Node.canonical⟩

def Closed.canonical : Closed → Closed
  | nextArm block => nextArm block.canonical
  | finished node => finished node.canonical

theorem terminator_canonical (block : OpenBlock) : block.canonical.terminator = block.terminator := by
  obtain ⟨opener, form, reversed⟩ := block
  cases form <;> rfl

theorem arm_canonical (form : ClauseForm) (block : OpenBlock) :
    block.canonical.arm .blank form = (block.arm lines form).canonical := by
  rw [arm, canonical, Invocation.call_canonical lines, Node.ofArm_canonical lines, arm]

theorem conditional_canonical (ifClause : Node) (elseifs : List Node) (elseClause : Option Node)
    (closing : Invocation) :
    conditional .blank ifClause.canonical (elseifs.map Node.canonical) (elseClause.map Node.canonical)
      closing.canonical = (conditional lines ifClause elseifs elseClause closing).canonical := by
  rw [conditional, Node.span_canonical, Invocation.span_canonical, merge_origin, LineIndex.locate_blank,
    Invocation.call_canonical lines, conditional, Node.canonical_conditional, List.map_reverse]

/-- A block takes a terminator or not whatever stands in it, and makes of it what it makes of its canonical form. -/
theorem close?_canonical (block : OpenBlock) (terminator : Terminator) (closing : Invocation) :
    block.canonical.close? .blank terminator closing.canonical =
      (block.close? lines terminator closing).map Closed.canonical := by
  have hArm (form : ClauseForm) := block.arm_canonical lines form
  obtain ⟨opener, form, reversed⟩ := block
  cases form with
  | block form =>
    cases terminator with
    | endBlock form' =>
      simp only [close?, canonical, OpenForm.canonical]
      split
      · rw [Invocation.span_canonical, Invocation.span_canonical, merge_origin, LineIndex.locate_blank,
          Invocation.call_canonical lines, Invocation.call_canonical lines, ← List.map_reverse, Option.map_some,
          Closed.canonical, Node.canonical_block]
      · rfl
    | _ => rfl
  | ifArm =>
    simp only [canonical, OpenForm.canonical] at hArm
    cases terminator with
    | endBlock => rfl
    | endConditional =>
      simp only [close?, canonical, OpenForm.canonical, hArm, Option.map_some, Closed.canonical,
        ← conditional_canonical]
      rfl
    | _ =>
      simp only [close?, canonical, OpenForm.canonical, hArm]
      rfl
  | elseifArm =>
    simp only [canonical, OpenForm.canonical] at hArm
    cases terminator with
    | endBlock => rfl
    | endConditional =>
      simp only [close?, canonical, OpenForm.canonical, hArm, Option.map_some, Closed.canonical,
        ← conditional_canonical]
      rfl
    | _ =>
      simp only [close?, canonical, OpenForm.canonical, hArm]
      rfl
  | elseArm =>
    simp only [canonical, OpenForm.canonical] at hArm
    cases terminator with
    | endConditional =>
      simp only [close?, canonical, OpenForm.canonical, hArm, Option.map_some, Closed.canonical,
        ← conditional_canonical]
    | _ => rfl

end OpenBlock

namespace Outline

def canonical (outline : Outline) : Outline :=
  ⟨outline.reversed.map Node.canonical, outline.blocks.map OpenBlock.canonical⟩

theorem push_canonical (outline : Outline) (statement : Node) :
    outline.canonical.push statement.canonical = (outline.push statement).canonical := by
  obtain ⟨reversed, blocks⟩ := outline
  cases blocks <;> rfl

theorem close_canonical (outline : Outline) (terminator : Terminator) (closing : Invocation) :
    outline.canonical.close .blank terminator closing.canonical =
      canonicalResult canonical (outline.close lines terminator closing) := by
  obtain ⟨reversed, blocks⟩ := outline
  cases blocks with
  | nil => rfl
  | cons block outer =>
    simp only [close, canonical, List.map_cons, OpenBlock.close?_canonical lines]
    cases block.close? lines terminator closing with
    | none => rfl
    | some closed =>
      cases closed with
      | nextArm => rfl
      | finished node => exact congrArg Except.ok (push_canonical ⟨reversed, outer⟩ node)

theorem step_canonical (outline : Outline) (call : Invocation) :
    outline.canonical.step .blank call.canonical = canonicalResult canonical (outline.step lines call) := by
  have hName : Keyword.ofName? call.canonical.name.text = Keyword.ofName? call.name.text :=
    Keyword.ofName?_lowerCase call.name.text
  rw [step, hName, step]
  cases Keyword.ofName? call.name.text with
  | none => simp only [call.call_canonical lines, push_canonical, canonicalResult]
  | some keyword =>
    cases keyword with
    | openConditional => rfl
    | openBlock => rfl
    | inclusion =>
      simp only [call.inclusion_canonical lines]
      cases call.inclusion lines with
      | error => rfl
      | ok node => exact congrArg Except.ok (push_canonical outline node)
    | terminator terminator => exact close_canonical lines outline terminator call

theorem foldlM_step_canonical (calls : List Invocation) (outline : Outline) :
    (calls.map Invocation.canonical).foldlM (step .blank) outline.canonical =
      canonicalResult canonical (calls.foldlM (step lines) outline) := by
  induction calls generalizing outline with
  | nil => rfl
  | cons call rest ih =>
    rw [List.map_cons, List.foldlM_cons, step_canonical lines, List.foldlM_cons]
    cases outline.step lines call with
    | error => rfl
    | ok next => exact ih next

theorem finish_canonical (outline : Outline) (span : Span) :
    outline.canonical.finish .blank .origin = canonicalResult Node.canonical (outline.finish lines span) := by
  obtain ⟨reversed, blocks⟩ := outline
  cases blocks with
  | nil =>
    simp only [finish, canonical, List.map_nil, LineIndex.locate_blank, canonicalResult, Node.canonical_toplevel,
      List.map_reverse]
  | cons block outer =>
    simp only [finish, canonical, List.map_cons, block.terminator_canonical]
    rfl

end Outline

/-! ## Scripts -/

theorem Node.ofTokens_canonical (tokens : List Token) :
    Node.ofTokens .blank (Token.canonical 0 tokens) = canonicalResult Node.canonical (Node.ofTokens lines tokens) := by
  unfold Node.ofTokens
  rw [Invocation.all_canonical]
  cases Invocation.all tokens with
  | mk calls ending =>
    have hFold := Outline.foldlM_step_canonical lines calls .empty
    rw [show Outline.empty.canonical = .empty from rfl] at hFold
    simp only [hFold]
    cases calls.foldlM (Outline.step lines) .empty with
    | error => rfl
    | ok outline =>
      cases ending with
      | refused => rfl
      | complete stop =>
        have hStart : ((Token.canonical 0 tokens).head?.map (·.span)).getD .origin = .origin := by
          cases tokens with
          | nil => rfl
          | cons token rest =>
            obtain ⟨token', hTokens, -, hSpan⟩ := Token.canonical_cons 0 token rest
            rw [hTokens, List.head?_cons, Option.map_some, Option.getD_some, hSpan]
        have hFinish := outline.finish_canonical lines (((tokens.head?.map (·.span)).getD stop).merge stop)
        simp only [Invocation.Ending.canonical, hStart, merge_origin]
        exact hFinish

/-- What a script is read as, without its places, is settled by the kinds and the texts of its tokens. -/
theorem canonicalResult_parse (source : String) :
    canonicalResult Node.canonical (parse source) = Node.ofTokens .blank (Token.canonical 0 (tokenize source)) :=
  (Node.ofTokens_canonical (.ofSource source) (tokenize source)).symm

end Listfile
