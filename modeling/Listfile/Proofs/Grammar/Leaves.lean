import Mathlib.Data.List.Forall2
import Listfile.Proofs.Grammar.Acceptance
import Listfile.Proofs.Source.Chains
/-! # What a tree keeps of its script

The leaves of a tree are its calls and inclusions, in the order of the script and not in that of the walk. They stand
for the invocations of the script one by one: the tokens that a leaf covers are those of its invocation, and what the
leaf says of its name and of its arguments is what those tokens say.
-/
namespace Listfile
set_option autoImplicit false

/-! ## Leaves -/

namespace Node

mutual

/-- The nodes of a tree that have no statements, clauses, headers or footers, in the order of a script. -/
def leaves : Node → List Node
  | toplevel _ statements => leavesAll statements
  | block _ _ header body footer => leaves header ++ (leavesAll body ++ leaves footer)
  | conditional _ ifClause elseifs elseClause footer =>
    leaves ifClause ++ (leavesAll elseifs ++ (leavesOption elseClause ++ leaves footer))
  | clause _ _ header body => leaves header ++ leavesAll body
  | call place name arguments => [call place name arguments]
  | inclusion place filename options => [inclusion place filename options]
  | word place type contents => [word place type contents]
  | unrecognized place tag payload => [unrecognized place tag payload]

def leavesAll : List Node → List Node
  | [] => []
  | node :: rest => leaves node ++ leavesAll rest

def leavesOption : Option Node → List Node
  | none => []
  | some node => leaves node

end

theorem leavesAll_append (nodes others : List Node) :
    leavesAll (nodes ++ others) = leavesAll nodes ++ leavesAll others := by
  induction nodes with
  | nil => rfl
  | cons node rest ih => rw [List.cons_append, leavesAll, leavesAll, ih, List.append_assoc]

theorem leavesAll_singleton (node : Node) : leavesAll [node] = node.leaves := by
  rw [leavesAll, leavesAll, List.append_nil]

end Node

theorem Invocation.leaves_call (lines : LineIndex) (call : Invocation) :
    (call.call lines).leaves = [call.call lines] := by
  rw [Invocation.call, Node.leaves]

theorem Invocation.leaves_clause (lines : LineIndex) (form : ClauseForm) (header : Invocation) (body : List Node) :
    (header.clause lines form body).leaves = header.call lines :: Node.leavesAll body := by
  rw [Invocation.clause, Node.leaves, Invocation.leaves_call, List.singleton_append]

theorem Derivation.leavesOption_head? (lines : LineIndex) (d : Derivation .elseArm) :
    Node.leavesOption (d.nodes lines).head? = Node.leavesAll (d.nodes lines) := by
  cases d with
  | noElse => rfl
  | elseBranch header hHeader body =>
    rw [nodes, List.head?_cons, Node.leavesOption, Node.leavesAll_singleton]

/-- The leaves of a derivation are made of its invocations, one by one and in the same order. -/
theorem Derivation.forall₂_leaves {lines : LineIndex} {related : Node → Invocation → Prop} {phrase : Phrase}
    (d : Derivation phrase) (hCall : ∀ call ∈ d.calls, related (call.call lines) call)
    (hInclusion : ∀ call ∈ d.calls, call.Names .inclusion → call.arguments ≠ [] →
      related (.inclusion (lines.locate call.span) (call.texts.headD "") call.texts.tail) call) :
    List.Forall₂ related (Node.leavesAll (d.nodes lines)) d.calls := by
  induction d with
  | empty | noElseif | noElse => exact .nil
  | append first rest ihFirst ihRest =>
    obtain ⟨hFirst, hRest⟩ := List.forall_mem_append.mp hCall
    obtain ⟨hFirst', hRest'⟩ := List.forall_mem_append.mp hInclusion
    rw [nodes, calls, Node.leavesAll_append]
    exact List.rel_append (ihFirst hFirst hFirst') (ihRest hRest hRest')
  | plain call =>
    rw [nodes, calls, Node.leavesAll_singleton, Invocation.leaves_call]
    exact .cons (hCall call List.mem_cons_self) .nil
  | inclusion call hName hArguments =>
    rw [nodes, calls, Node.leavesAll_singleton, Node.leaves]
    exact .cons (hInclusion call List.mem_cons_self hName hArguments) .nil
  | block form opener hOpener body closer hCloser ih =>
    simp only [calls, List.forall_mem_cons, List.forall_mem_append] at hCall hInclusion
    obtain ⟨hFirst, hBody, hLast, -⟩ := hCall
    obtain ⟨-, hBody', -⟩ := hInclusion
    rw [nodes, calls, Node.leavesAll_singleton, Node.leaves, Invocation.leaves_call, Invocation.leaves_call]
    exact .cons hFirst (List.rel_append (ih hBody hBody') (.cons hLast .nil))
  | conditional opener hOpener body elseifs elseArm closer hCloser ihBody ihElseifs ihElseArm =>
    simp only [calls, List.forall_mem_cons, List.forall_mem_append] at hCall hInclusion
    obtain ⟨hFirst, hBody, hElseifs, hElseArm, hLast, -⟩ := hCall
    obtain ⟨-, hBody', hElseifs', hElseArm', -⟩ := hInclusion
    rw [nodes, calls, Node.leavesAll_singleton, Node.leaves, Invocation.leaves_clause, leavesOption_head?,
      Invocation.leaves_call, List.cons_append]
    refine .cons hFirst (List.rel_append (ihBody hBody hBody') ?_)
    refine List.rel_append (ihElseifs hElseifs hElseifs') ?_
    exact List.rel_append (ihElseArm hElseArm hElseArm') (.cons hLast .nil)
  | elseif header hHeader body rest ihBody ihRest =>
    simp only [calls, List.forall_mem_cons, List.forall_mem_append] at hCall hInclusion
    obtain ⟨hFirst, hBody, hRest⟩ := hCall
    obtain ⟨-, hBody', hRest'⟩ := hInclusion
    rw [nodes, calls, Node.leavesAll, Invocation.leaves_clause, List.cons_append]
    exact .cons hFirst (List.rel_append (ihBody hBody hBody') (ihRest hRest hRest'))
  | elseBranch header hHeader body ih =>
    simp only [calls, List.forall_mem_cons] at hCall hInclusion
    rw [nodes, calls, Node.leavesAll_singleton, Invocation.leaves_clause]
    exact .cons hCall.1 (ih hCall.2 hInclusion.2)

/-! ## Words -/

/-- A text between the delimiters of a type of word. -/
def WordType.delimited : WordType → String → String
  | quoted, contents => "\"" ++ contents ++ "\""
  | bracket, contents => "[[" ++ contents ++ "]]"
  | _, contents => contents

namespace Token

/-- Whether a token is written as a word of the type with the contents would be. -/
structure Means (token : Token) (type : WordType) (contents : String) : Prop where
  text : type.delimited contents = token.text
  quoted : type = .quoted ↔ token.kind = .quoted
  bracket : type = .bracket ↔ token.kind = .bracket

def wordType (token : Token) : WordType :=
  match token.kind with
  | .quoted => .quoted
  | .bracket => .bracket
  | _ => .ofUnquoted token.text

def contents (token : Token) : String :=
  match token.kind with
  | .quoted => withoutDelimiters 1 token.text
  | .bracket => withoutDelimiters 2 token.text
  | _ => token.text

theorem word_eq (lines : LineIndex) (token : Token) :
    token.word lines = .word (lines.locate token.span) token.wordType token.contents := by
  obtain ⟨kind, span, text⟩ := token
  cases kind <;> rfl

theorem withoutDelimiters_append {width : Nat} {left right : String} (hLeft : left.length = width)
    (hRight : right.length = width) (body : String) : withoutDelimiters width (left ++ body ++ right) = body := by
  have hLength : (left ++ body ++ right).length - 2 * width = body.length := by
    rw [String.length_append, String.length_append]
    omega
  rw [withoutDelimiters, hLength, String.toList_append, String.toList_append, List.append_assoc,
    List.drop_left' (by rw [String.length_toList, hLeft]), List.take_left' String.length_toList, String.ofList_toList]

theorem ofUnquoted_ne (text : String) : WordType.ofUnquoted text ≠ .quoted ∧ WordType.ofUnquoted text ≠ .bracket := by
  simp only [WordType.ofUnquoted]
  repeat' split
  all_goals simp

theorem means_of_plain {token : Token} (hQuoted : token.kind ≠ .quoted) (hBracket : token.kind ≠ .bracket) :
    token.Means token.wordType token.contents := by
  obtain ⟨hNotQuoted, hNotBracket⟩ := ofUnquoted_ne token.text
  have hType : token.wordType = .ofUnquoted token.text := by
    unfold wordType
    split <;> first | contradiction | rfl
  have hContents : token.contents = token.text := by
    unfold contents
    split <;> first | contradiction | rfl
  rw [hType, hContents]
  refine ⟨?_, iff_of_false hNotQuoted hQuoted, iff_of_false hNotBracket hBracket⟩
  unfold WordType.delimited
  split <;> first | contradiction | rfl

theorem means_contents {source : String} {token : Token} (h : token ∈ tokenize source) :
    token.Means token.wordType token.contents := by
  by_cases hQuoted : token.kind = .quoted
  · obtain ⟨body, hText⟩ := Lexer.text_of_quoted (mem_lexemes_of_mem_tokenize h (by simp [hQuoted])) hQuoted
    constructor <;> simp only [wordType, contents, hQuoted, reduceCtorEq]
    rw [hText, withoutDelimiters_append (by rfl) (by rfl), WordType.delimited]
  by_cases hBracket : token.kind = .bracket
  · obtain ⟨body, hText⟩ := Lexer.text_of_bracket (mem_lexemes_of_mem_tokenize h (by simp [hBracket])) hBracket
    constructor <;> simp only [wordType, contents, hBracket, reduceCtorEq]
    rw [hText, withoutDelimiters_append (by rfl) (by rfl), WordType.delimited]
  exact means_of_plain hQuoted hBracket

end Token

/-! ## Tokens within a span -/

def Span.covers (span inner : Span) : Bool := span.start ≤ inner.start && inner.stop ≤ span.stop

/-- The tokens of a source that a span covers, without the end of the text. -/
def tokensWithin (source : String) (span : Span) : List Token :=
  (tokenize source).dropLast.filter fun token => span.covers token.span

theorem filter_covers {span : Span} {front tokens back : List Token} {offset : Nat}
    (h : Token.Ascending offset (front ++ (tokens ++ back))) (hFront : ∀ token ∈ front, token.span.stop ≤ span.start)
    (hTokens : ∀ token ∈ tokens, span.start ≤ token.span.start ∧ token.span.stop ≤ span.stop)
    (hBack : ∀ token ∈ back, span.stop ≤ token.span.start) :
    (front ++ (tokens ++ back)).filter (fun token => span.covers token.span) = tokens := by
  have hFrontNone : front.filter (fun token => span.covers token.span) = [] := by
    apply List.filter_eq_nil_iff.mpr
    intro token hToken
    have hLt := h.of_mem (List.mem_append_left _ hToken)
    have hLe := hFront token hToken
    simp only [Span.covers, Bool.and_eq_true, decide_eq_true_eq]
    omega
  have hBackNone : back.filter (fun token => span.covers token.span) = [] := by
    apply List.filter_eq_nil_iff.mpr
    intro token hToken
    have hLt := h.of_mem (List.mem_append_right _ (List.mem_append_right _ hToken))
    have hLe := hBack token hToken
    simp only [Span.covers, Bool.and_eq_true, decide_eq_true_eq]
    omega
  have hAll : tokens.filter (fun token => span.covers token.span) = tokens := by
    apply List.filter_eq_self.mpr
    intro token hToken
    simpa [Span.covers] using hTokens token hToken
  rw [List.filter_append, List.filter_append, hFrontNone, hBackNone, hAll, List.nil_append, List.append_nil]

namespace Token.Ascending

variable {first last : Token} {inner : List Token} {offset : Nat}

theorem within {token : Token} (h : Ascending offset (first :: inner ++ [last]))
    (hToken : token ∈ first :: inner ++ [last]) :
    first.span.start ≤ token.span.start ∧ token.span.stop ≤ last.span.stop := by
  obtain ⟨-, middle, -, hFront, hMiddle, hLast, -⟩ := h.of_append
  obtain ⟨-, hFirst, hRest⟩ := h
  constructor
  · rcases List.mem_cons.mp hToken with rfl | hToken
    · exact Nat.le_refl _
    · have hStart := hRest.of_mem hToken
      omega
  · rcases List.mem_append.mp hToken with hToken | hToken
    · have hStop := hFront token hToken
      omega
    · obtain rfl := List.mem_singleton.mp hToken
      exact Nat.le_refl _

/-- From the start of a token to the end of a later one there are these two, those between them and no other ones. -/
theorem filter_covers {front back : List Token} (h : Ascending offset (front ++ (first :: inner ++ [last] ++ back))) :
    (front ++ (first :: inner ++ [last] ++ back)).filter
        (fun token => Span.covers ⟨first.span.start, last.span.stop⟩ token.span) = first :: inner ++ [last] := by
  obtain ⟨-, middle, -, hBefore, hRest⟩ := h.of_append
  obtain ⟨hTokens, stop, -, hInside, hBack⟩ := hRest.of_append
  apply Listfile.filter_covers h
  · intro token hToken
    exact Nat.le_trans (hBefore token hToken) hTokens.1
  · intro token hToken
    exact hTokens.within hToken
  · intro token hToken
    exact Nat.le_trans (hInside last (by simp)) (hBack.of_mem hToken).1

end Token.Ascending

theorem Invocation.span_eq {call : Invocation} {offset : Nat} (h : Token.Ascending offset call.tokens) :
    call.span = ⟨call.name.span.start, call.closing.span.stop⟩ := by
  have hClosing := h.within (show call.closing ∈ call.tokens by simp [tokens])
  have hName := h.within (show call.name ∈ call.tokens by simp [tokens])
  exact Span.merge_of_le hClosing.1 hName.2

theorem Invocation.Split.tokensWithin_eq {source : String} {calls : List Invocation}
    (h : Split (tokenize source).dropLast calls) {call : Invocation} (hCall : call ∈ calls) :
    tokensWithin source call.span = call.tokens := by
  obtain ⟨front, back, rfl⟩ := List.append_of_mem hCall
  have hAscending := ascending_dropLast source
  have hTokens := h.tokens_eq
  rw [List.flatMap_append, List.flatMap_cons] at hTokens
  rw [hTokens] at hAscending
  obtain ⟨-, middle, -, -, hRest⟩ := hAscending.of_append
  rw [tokensWithin, hTokens, Invocation.span_eq hRest.of_append.1]
  exact hAscending.filter_covers

/-! ## Leaves and invocations -/

/-- Whether a node is the word that a token is written as, at the place of the token. -/
def Node.IsWordOf (word : Node) (token : Token) : Prop :=
  ∃ place type contents, word = .word place type contents ∧ place.span = token.span ∧ token.Means type contents

theorem Token.isWordOf {source : String} {token : Token} (h : token ∈ tokenize source) (lines : LineIndex) :
    (token.word lines).IsWordOf token :=
  ⟨lines.locate token.span, token.wordType, token.contents, token.word_eq lines, rfl, Token.means_contents h⟩

/-- Whether a leaf says what the tokens of an invocation say. -/
inductive Node.StandsFor : Node → Invocation → Prop
  | call {place : Location} {arguments : List Node} {call : Invocation}
    (hArguments : List.Forall₂ IsWordOf arguments call.arguments) :
    StandsFor (.call place call.name.text arguments) call
  | inclusion {place : Location} {filename : String} {options : List String} {call : Invocation}
    (hName : sameCommand call.name.text "include")
    (hTexts : List.Forall₂ (fun contents token => ∃ type, token.Means type contents) (filename :: options)
      call.arguments) :
    StandsFor (.inclusion place filename options) call

theorem Invocation.texts_eq (call : Invocation) : call.texts = call.arguments.map Token.contents := by
  refine List.map_congr_left fun token _ => ?_
  obtain ⟨kind, span, text⟩ := token
  cases kind <;> rfl

namespace Derivation.IsOf

variable {script : Derivation .body} {source : String} (h : script.IsOf source) {call : Invocation}
  (hCall : call ∈ script.calls)
include h hCall

theorem mem_tokenize_of_argument {token : Token} (hToken : token ∈ call.arguments) : token ∈ tokenize source :=
  h.mem_tokenize hCall (by simp [Invocation.tokens, hToken])

theorem standsFor_call (lines : LineIndex) : (call.call lines).StandsFor call := by
  apply Node.StandsFor.call
  rw [Invocation.words, List.forall₂_map_left_iff, List.forall₂_same]
  intro token hToken
  exact Token.isWordOf (h.mem_tokenize_of_argument hCall hToken) lines

theorem standsFor_inclusion (hName : call.Names .inclusion) (hArguments : call.arguments ≠ []) (place : Location) :
    (Node.inclusion place (call.texts.headD "") call.texts.tail).StandsFor call := by
  apply Node.StandsFor.inclusion hName
  have hTexts : call.texts ≠ [] := by
    rw [Invocation.texts_eq]
    exact fun hNil => hArguments (List.map_eq_nil_iff.mp hNil)
  have hCons : call.texts.headD "" :: call.texts.tail = call.texts := by
    cases hTexts' : call.texts with
    | nil => exact absurd hTexts' hTexts
    | cons => rfl
  rw [hCons, Invocation.texts_eq, List.forall₂_map_left_iff, List.forall₂_same]
  exact fun token hToken => ⟨_, Token.means_contents (h.mem_tokenize_of_argument hCall hToken)⟩

end Derivation.IsOf

/-- The leaves of a tree cover the tokens of its invocations one by one, and say what these say. -/
theorem Derivation.IsOf.forall₂_leaves {script : Derivation .body} {source : String} (h : script.IsOf source) :
    List.Forall₂ (fun leaf call => tokensWithin source leaf.span = call.tokens ∧ leaf.StandsFor call)
      (script.tree source).leaves script.calls := by
  rw [Derivation.tree, Node.leaves]
  apply script.forall₂_leaves
  · intro call hCall
    exact ⟨Invocation.Split.tokensWithin_eq h hCall, h.standsFor_call hCall _⟩
  · intro call hCall hName hArguments
    exact ⟨Invocation.Split.tokensWithin_eq h hCall, h.standsFor_inclusion hCall hName hArguments _⟩

/-- Nothing of an accepted script is lost, added or reordered. The tokens, each of which the source has at its span, are
a sequence of invocations; the leaves of the tree cover the tokens of these one by one, and so all tokens together, and
each says what the tokens that it covers say. -/
theorem leaves_cover_tokens {source : String} {root : Node} (h : parse source = .ok root) :
    (∀ token ∈ tokenize source, token.span.Spells source token.text) ∧
    (∃ calls, Invocation.Split (tokenize source).dropLast calls ∧
      List.Forall₂ (fun leaf call => tokensWithin source leaf.span = call.tokens ∧ leaf.StandsFor call)
        root.leaves calls) ∧
    root.leaves.flatMap (fun leaf => tokensWithin source leaf.span) = (tokenize source).dropLast := by
  obtain ⟨script, hIsOf, rfl⟩ := exists_script_of_parse h
  have hSplit : Invocation.Split (tokenize source).dropLast script.calls := hIsOf
  have hLeaves := hIsOf.forall₂_leaves
  refine ⟨fun _ => spells_of_mem_tokenize, ⟨script.calls, hSplit, hLeaves⟩, ?_⟩
  have hTokens : (script.tree source).leaves.map (fun leaf => tokensWithin source leaf.span) =
      script.calls.map Invocation.tokens := by
    rw [← List.forall₂_eq_eq_eq, List.forall₂_map_left_iff, List.forall₂_map_right_iff]
    exact hLeaves.imp fun _ _ hLeaf => hLeaf.1
  rw [List.flatMap_def, hTokens, ← List.flatMap_def, ← hSplit.tokens_eq]

/-- A conditional with all its arms, whose tree has the arms in another order than the script. -/
theorem leaves_cover_tokens_of_conditional :
    let source := "if(A \"b c\")\n  include([[d]] OPTIONAL) # e\nelseif((B) AND C)\n  set(X 1)\nelse()\nendif()\n"
    ∃ root, parse source = .ok root ∧
      (∃ calls, Invocation.Split (tokenize source).dropLast calls ∧
        List.Forall₂ (fun leaf call => tokensWithin source leaf.span = call.tokens ∧ leaf.StandsFor call)
          root.leaves calls) ∧
      root.leaves.flatMap (fun leaf => tokensWithin source leaf.span) = (tokenize source).dropLast := by
  intro source
  have hAccepted : (parse source).isOk = true := by decide +kernel
  cases hParse : parse source with
  | ok root => exact ⟨root, rfl, (leaves_cover_tokens hParse).2⟩
  | error error =>
    rw [hParse] at hAccepted
    cases hAccepted

end Listfile
