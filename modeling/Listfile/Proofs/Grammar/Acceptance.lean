import Listfile.Proofs.Grammar.Invocations
import Listfile.Proofs.Grammar.Outlines
import Listfile.Proofs.Token.Lexemes
/-! # Which scripts are accepted

A script is accepted exactly if its tokens are a sequence of invocations that the grammar derives, and its tree is
then that of the derivation, of which there is only one.
-/
namespace Listfile
set_option autoImplicit false

/-! ## The end of the text -/

def Token.ending (source : String) : Token := ⟨.endOfText, ⟨source.utf8ByteSize, source.utf8ByteSize⟩, ""⟩

theorem tokenize_eq (source : String) : tokenize source = (tokenize source).dropLast ++ [.ending source] := by
  rw [tokenize, List.dropLast_concat]
  rfl

theorem kind_ne_of_mem_dropLast {source : String} : ∀ token ∈ (tokenize source).dropLast, token.kind ≠ .endOfText := by
  intro token hToken
  rw [tokenize, List.dropLast_concat] at hToken
  exact Lexer.kind_ne_of_mem_lexemes (List.mem_filter.mp hToken).1

/-! ## Accepted token lists -/

section tokens

variable (lines : LineIndex) {tokens : List Token} {stop : Token}

/-- The place of a whole script: from its first token to the end of the text. -/
def scriptPlace (tokens : List Token) (stop : Span) : Location :=
  lines.locate (((tokens.head?.map (·.span)).getD stop).merge stop)

theorem finish_eq_ok {outline : Outline} {span : Span} {root : Node} :
    outline.finish lines span = .ok root ↔
      outline.blocks = [] ∧ root = .toplevel (lines.locate span) outline.reversed.reverse := by
  unfold Outline.finish
  split
  · rename_i hBlocks
    rw [Except.ok.injEq, eq_comm]
    exact (and_iff_right hBlocks).symm
  · rename_i hBlocks
    simp [hBlocks]

theorem ofTokens_of_split (hStop : stop.kind = .endOfText) {script : Derivation .body}
    (h : Invocation.Split tokens script.calls) : Node.ofTokens lines (tokens ++ [stop]) =
      .ok (.toplevel (scriptPlace lines (tokens ++ [stop]) stop.span) (script.nodes lines)) := by
  have hFold := script.taken lines .empty
  rw [Outline.empty, Outline.pushAll_closed, List.append_nil] at hFold
  rw [Node.ofTokens, Invocation.all_of_split h hStop]
  simp only [Outline.empty, hFold]
  have hFinish (span : Span) : Outline.finish lines ⟨(script.nodes lines).reverse, []⟩ span =
      .ok (.toplevel (lines.locate span) (script.nodes lines)) := by
    rw [finish_eq_ok, List.reverse_reverse]
    exact ⟨rfl, rfl⟩
  exact hFinish _

theorem Outline.Holds.exists_body {lines : LineIndex} {outline : Outline} {calls : List Invocation}
    (h : outline.Holds lines calls) (hBlocks : outline.blocks = []) :
    ∃ body : Derivation .body, body.calls = calls := by
  cases h with
  | finished body => exact ⟨body, rfl⟩
  | within => cases hBlocks

theorem split_of_ofTokens (hTokens : ∀ token ∈ tokens, token.kind ≠ .endOfText) (hStop : stop.kind = .endOfText)
    {root : Node} (h : Node.ofTokens lines (tokens ++ [stop]) = .ok root) :
    ∃ script : Derivation .body, Invocation.Split tokens script.calls := by
  unfold Node.ofTokens at h
  cases hAll : Invocation.all (tokens ++ [stop]) with
  | mk calls ending =>
    rw [hAll] at h
    cases hFold : calls.foldlM (Outline.step lines) .empty with
    | error error =>
      simp only [hFold] at h
      cases h
    | ok outline =>
      simp only [hFold] at h
      cases ending with
      | refused error => cases h
      | complete span =>
        obtain ⟨hSplit, rfl⟩ := Invocation.split_of_all hTokens hStop hAll
        obtain ⟨hBlocks, -⟩ := (finish_eq_ok lines).mp h
        have hEmpty : Outline.Holds lines .empty [] := .finished .empty
        have hHolds := hEmpty.foldlM_step hFold
        obtain ⟨script, hCalls⟩ := hHolds.exists_body hBlocks
        exact ⟨script, hCalls ▸ hSplit⟩

end tokens

/-- The derivation has the tokens of the script, up to the end of the text. -/
def Derivation.IsOf (script : Derivation .body) (source : String) : Prop :=
  Invocation.Split (tokenize source).dropLast script.calls

def Derivation.tree (source : String) (script : Derivation .body) : Node :=
  let lines := LineIndex.ofSource source
  .toplevel (scriptPlace lines (tokenize source) (Token.ending source).span) (script.nodes lines)

theorem Derivation.IsOf.mem_tokenize {script : Derivation .body} {source : String} (h : script.IsOf source)
    {call : Invocation} (hCall : call ∈ script.calls) {token : Token} (hToken : token ∈ call.tokens) :
    token ∈ tokenize source := by
  apply List.dropLast_subset
  rw [h.tokens_eq]
  exact List.mem_flatMap.mpr ⟨call, hCall, hToken⟩

theorem Derivation.IsOf.unique {script script' : Derivation .body} {source : String} (h : script.IsOf source)
    (h' : script'.IsOf source) : script = script' := by
  have hStop : (Token.ending source).kind = .endOfText := rfl
  have hAll := Invocation.all_of_split h hStop
  rw [Invocation.all_of_split h' hStop] at hAll
  have hCalls : script'.calls = script.calls := congrArg Prod.fst hAll
  have hNone : Ends none [] := fun call hCall => by cases hCall
  exact (unique_of_calls script script' hNone hNone (by rw [hCalls])).1

theorem Derivation.IsOf.parse_eq {script : Derivation .body} {source : String} (h : script.IsOf source) :
    parse source = .ok (script.tree source) := by
  have hStop : (Token.ending source).kind = .endOfText := rfl
  have hTokens := ofTokens_of_split (LineIndex.ofSource source) hStop h
  rwa [← tokenize_eq] at hTokens

theorem exists_script_of_parse {source : String} {root : Node} (h : parse source = .ok root) :
    ∃ script : Derivation .body, script.IsOf source ∧ root = script.tree source := by
  have hTokens := h
  rw [parse, tokenize_eq] at hTokens
  obtain ⟨script, hIsOf⟩ : ∃ script : Derivation .body, script.IsOf source :=
    split_of_ofTokens _ kind_ne_of_mem_dropLast rfl hTokens
  have hTree := hIsOf.parse_eq
  rw [h] at hTree
  exact ⟨script, hIsOf, Except.ok.inj hTree⟩

/-- A script is accepted exactly if the grammar derives its tokens. There is one derivation then, and the tree is
that of the derivation. -/
theorem parse_accepts_grammar (source : String) :
    ((∃ root, parse source = .ok root) ↔ ∃ script : Derivation .body, script.IsOf source) ∧
    (∀ script script' : Derivation .body, script.IsOf source → script'.IsOf source → script = script') ∧
    ∀ root, parse source = .ok root ↔ ∃ script : Derivation .body, script.IsOf source ∧ root = script.tree source := by
  refine ⟨⟨?_, ?_⟩, fun _ _ h h' => h.unique h', fun root => ⟨exists_script_of_parse, ?_⟩⟩
  · rintro ⟨root, h⟩
    obtain ⟨script, hIsOf, -⟩ := exists_script_of_parse h
    exact ⟨script, hIsOf⟩
  · rintro ⟨script, hIsOf⟩
    exact ⟨_, hIsOf.parse_eq⟩
  · rintro ⟨script, hIsOf, rfl⟩
    exact hIsOf.parse_eq

end Listfile
