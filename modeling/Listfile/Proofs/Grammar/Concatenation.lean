import Listfile.Proofs.Grammar.Places
import Listfile.Proofs.Source.Lines
import Listfile.Proofs.Token.Concatenation
import Listfile.Proofs.Tree.Relocation
/-! # Scripts one after the other

Two accepted scripts with a line feed between them are an accepted script, whose statements are those of the first,
unchanged, and those of the second at later places. The first one must have no `[[` in a line comment or in an unquoted
argument, since brackets that are open there may be closed in the second.
-/
namespace Listfile
set_option autoImplicit false

/-! ## Invocations at other spans -/

namespace Invocation

def mapSpans (move : Span → Span) (call : Invocation) : Invocation :=
  ⟨call.name.mapSpan move, call.opening.mapSpan move, call.arguments.map (Token.mapSpan move),
    call.closing.mapSpan move⟩

variable {move : Span → Span}

theorem Names.mapSpans {call : Invocation} {keyword : Keyword} (h : call.Names keyword) :
    (call.mapSpans move).Names keyword := h

theorem tokens_mapSpans (call : Invocation) : (call.mapSpans move).tokens = call.tokens.map (Token.mapSpan move) := by
  simp [tokens, mapSpans]

theorem texts_mapSpans (call : Invocation) : (call.mapSpans move).texts = call.texts := by
  rw [texts, mapSpans, List.map_map]
  rfl

theorem openings_map (tokens : List Token) : openings (tokens.map (Token.mapSpan move)) = openings tokens :=
  List.countP_map

theorem closings_map (tokens : List Token) : closings (tokens.map (Token.mapSpan move)) = closings tokens :=
  List.countP_map

theorem Balanced.map {nesting : Nat} {tokens : List Token} (h : Balanced nesting tokens) :
    Balanced nesting (tokens.map (Token.mapSpan move)) := by
  constructor
  · exact List.forall_mem_map.mpr h.inner
  · intro front hFront
    obtain ⟨front', hFront', rfl⟩ := List.prefix_map_iff.mp hFront
    rw [openings_map, closings_map]
    exact h.never_below front' hFront'
  · rw [openings_map, closings_map]
    exact h.settled

theorem Split.mapSpans {tokens : List Token} {calls : List Invocation} (h : Split tokens calls) :
    Split (tokens.map (Token.mapSpan move)) (calls.map (Invocation.mapSpans move)) := by
  constructor
  · intro call hCall
    obtain ⟨call, hMem, rfl⟩ := List.mem_map.mp hCall
    obtain ⟨hName, hOpening, hArguments, hClosing⟩ := h.wellFormed call hMem
    exact ⟨hName, hOpening, hArguments.map, hClosing⟩
  · rw [h.tokens_eq, List.map_flatMap, List.flatMap_map]
    simp only [tokens_mapSpans]

theorem Split.append {tokens tokens' : List Token} {calls calls' : List Invocation} (h : Split tokens calls)
    (h' : Split tokens' calls') : Split (tokens ++ tokens') (calls ++ calls') := by
  constructor
  · exact List.forall_mem_append.mpr ⟨h.wellFormed, h'.wellFormed⟩
  · rw [h.tokens_eq, h'.tokens_eq, List.flatMap_append]

theorem WellFormed.kind_ne {call : Invocation} (h : call.WellFormed) {token : Token} (hToken : token ∈ call.tokens) :
    token.kind ≠ .invalid := by
  intro hInvalid
  obtain ⟨hName, hOpening, hArguments, hClosing⟩ := h
  simp only [tokens, List.cons_append, List.mem_cons, List.mem_append, List.not_mem_nil, or_false] at hToken
  rcases hToken with rfl | rfl | hToken | rfl
  · simp [hName] at hInvalid
  · simp [hOpening] at hInvalid
  · have hInner := hArguments.inner token hToken
    simp [Inner, hInvalid, Token.Kind.isArgument] at hInner
  · simp [hClosing] at hInvalid

end Invocation

namespace Derivation

def mapSpans (move : Span → Span) : {phrase : Phrase} → Derivation phrase → Derivation phrase
  | _, empty => empty
  | _, append first rest => append (first.mapSpans move) (rest.mapSpans move)
  | _, plain call hCall => plain (call.mapSpans move) fun keyword hNames => hCall keyword hNames
  | _, inclusion call hCall hArguments =>
    inclusion (call.mapSpans move) hCall.mapSpans fun hNil => hArguments (List.map_eq_nil_iff.mp hNil)
  | _, block form opener hOpener body closer hCloser =>
    block form (opener.mapSpans move) hOpener.mapSpans (body.mapSpans move) (closer.mapSpans move) hCloser.mapSpans
  | _, conditional opener hOpener body elseifs elseArm closer hCloser =>
    conditional (opener.mapSpans move) hOpener.mapSpans (body.mapSpans move) (elseifs.mapSpans move)
      (elseArm.mapSpans move) (closer.mapSpans move) hCloser.mapSpans
  | _, noElseif => noElseif
  | _, elseif header hHeader body rest =>
    elseif (header.mapSpans move) hHeader.mapSpans (body.mapSpans move) (rest.mapSpans move)
  | _, noElse => noElse
  | _, elseBranch header hHeader body => elseBranch (header.mapSpans move) hHeader.mapSpans (body.mapSpans move)

theorem calls_mapSpans {move : Span → Span} {phrase : Phrase} (d : Derivation phrase) :
    (d.mapSpans move).calls = d.calls.map (Invocation.mapSpans move) := by
  induction d <;> simp_all [mapSpans, calls]

end Derivation

/-! ## Nodes at other places -/

/-- Whether the place of a span that was moved is found from its place before, for the spans that are allowed. -/
structure Relocates (lines lines' : LineIndex) (allowed : Span → Prop) (move : Span → Span)
    (relocate : Location → Location) : Prop where
  allowed_merge : ∀ a b, allowed a → allowed b → allowed (a.merge b)
  move_merge : ∀ a b, move (a.merge b) = (move a).merge (move b)
  locate : ∀ span, allowed span → lines'.locate (move span) = relocate (lines.locate span)

namespace Relocates

variable {lines lines' : LineIndex} {allowed : Span → Prop} {move : Span → Span} {relocate : Location → Location}
  (h : Relocates lines lines' allowed move relocate)

include h

theorem span_mapPlaces {node : Node} (hNode : node.PlacedIn lines allowed) :
    (node.mapPlaces relocate).span = move node.span := by
  obtain ⟨-, hAllowed, hPlace⟩ := hNode
  rw [Node.span, Node.place_mapPlaces, hPlace, ← h.locate _ hAllowed]
  rfl

theorem word {token : Token} (hToken : allowed token.span) :
    (token.mapSpan move).word lines' = (token.word lines).mapPlaces relocate := by
  have hPlace := h.locate token.span hToken
  obtain ⟨kind, span, text⟩ := token
  cases kind <;> simp only [Token.word, Token.mapSpan, Node.mapPlaces, hPlace]

theorem span_call {call : Invocation} : (call.mapSpans move).span = move call.span := (h.move_merge _ _).symm

theorem call {call : Invocation} (hCall : call.Uses allowed) :
    (call.mapSpans move).call lines' = (call.call lines).mapPlaces relocate := by
  have hWords : (call.mapSpans move).words lines' = (call.words lines).map (Node.mapPlaces relocate) := by
    rw [Invocation.words, Invocation.mapSpans, Invocation.words, List.map_map, List.map_map]
    apply List.map_congr_left
    intro token hToken
    apply h.word
    apply hCall
    simp [Invocation.tokens, hToken]
  rw [Invocation.call, Invocation.call, Node.mapPlaces, Node.mapPlacesAll_eq, hWords, h.span_call,
    h.locate _ (hCall.span h.allowed_merge)]
  rfl

theorem clause (form : ClauseForm) {header : Invocation} {body : Derivation .body} (hHeader : header.Uses allowed)
    (hBody : ∀ call ∈ body.calls, call.Uses allowed)
    (hNodes : (body.mapSpans move).nodes lines' = (body.nodes lines).map (Node.mapPlaces relocate)) :
    (header.mapSpans move).clause lines' form ((body.mapSpans move).nodes lines') =
      (header.clause lines form (body.nodes lines)).mapPlaces relocate := by
  have hAllowed := hHeader.span h.allowed_merge
  rw [Invocation.clause, Invocation.clause, Node.mapPlaces, Node.mapPlacesAll_eq, h.call hHeader, h.span_call, hNodes,
    List.getLast?_map]
  cases hReached : (body.nodes lines).getLast? with
  | none =>
    simp only [Option.map_none, Option.elim_none]
    rw [h.locate _ hAllowed]
  | some last =>
    have hLast := (body.placed_nodes h.allowed_merge hBody last (List.mem_of_getLast? hReached)).self
    simp only [Option.map_some, Option.elim_some]
    rw [h.span_mapPlaces hLast, ← h.move_merge, h.locate _ (h.allowed_merge _ _ hAllowed hLast.2.1)]

/-- The nodes of a derivation whose spans were moved are the nodes it had, each at its new place. -/
theorem nodes {phrase : Phrase} (d : Derivation phrase) (hCalls : ∀ call ∈ d.calls, call.Uses allowed) :
    (d.mapSpans move).nodes lines' = (d.nodes lines).map (Node.mapPlaces relocate) := by
  induction d with
  | empty | noElseif | noElse => rfl
  | append first rest ihFirst ihRest =>
    obtain ⟨hFirst, hRest⟩ := List.forall_mem_append.mp hCalls
    rw [Derivation.mapSpans, Derivation.nodes, Derivation.nodes, ihFirst hFirst, ihRest hRest, List.map_append]
  | plain call =>
    rw [Derivation.mapSpans, Derivation.nodes, Derivation.nodes, h.call (List.forall_mem_singleton.mp hCalls)]
    rfl
  | inclusion call =>
    have hSpan := (List.forall_mem_singleton.mp hCalls).span h.allowed_merge
    rw [Derivation.mapSpans, Derivation.nodes, Derivation.nodes, h.span_call, h.locate _ hSpan,
      Invocation.texts_mapSpans]
    rfl
  | block form opener hOpener body closer hCloser ih =>
    simp only [Derivation.calls, List.forall_mem_cons, List.forall_mem_append] at hCalls
    obtain ⟨hFirst, hBody, hLast, -⟩ := hCalls
    have hSpan := h.allowed_merge _ _ (hFirst.span h.allowed_merge) (hLast.span h.allowed_merge)
    rw [Derivation.mapSpans, Derivation.nodes, Derivation.nodes, List.map_singleton, Node.mapPlaces,
      Node.mapPlacesAll_eq, h.call hFirst, h.call hLast, ih hBody, h.span_call, h.span_call, ← h.move_merge,
      h.locate _ hSpan]
  | conditional opener hOpener body elseifs elseArm closer hCloser ihBody ihElseifs ihElseArm =>
    simp only [Derivation.calls, List.forall_mem_cons, List.forall_mem_append] at hCalls
    obtain ⟨hFirst, hBody, hElseifs, hElseArm, hLast, -⟩ := hCalls
    have hIf : (opener.clause lines .ifClause (body.nodes lines)).PlacedIn lines allowed :=
      (Invocation.placed_clause h.allowed_merge .ifClause hFirst (body.placed_nodes h.allowed_merge hBody)).self
    have hSpan := h.allowed_merge _ _ hIf.2.1 (hLast.span h.allowed_merge)
    rw [Derivation.mapSpans, Derivation.nodes, Derivation.nodes]
    simp only [h.clause .ifClause hFirst hBody (ihBody hBody)]
    rw [List.map_singleton, Node.mapPlaces, Node.mapPlacesAll_eq, Node.mapPlacesOption_eq, h.call hLast,
      ihElseifs hElseifs, ihElseArm hElseArm, h.span_mapPlaces hIf, h.span_call, ← h.move_merge, h.locate _ hSpan,
      List.head?_map]
  | elseif header hHeader body rest ihBody ihRest =>
    simp only [Derivation.calls, List.forall_mem_cons, List.forall_mem_append] at hCalls
    obtain ⟨hFirst, hBody, hRest⟩ := hCalls
    rw [Derivation.mapSpans, Derivation.nodes, Derivation.nodes, h.clause .elseifClause hFirst hBody (ihBody hBody),
      ihRest hRest, List.map_cons]
  | elseBranch header hHeader body ih =>
    simp only [Derivation.calls, List.forall_mem_cons] at hCalls
    rw [Derivation.mapSpans, Derivation.nodes, Derivation.nodes, h.clause .elseClause hCalls.1 hCalls.2 (ih hCalls.2),
      List.map_singleton]

end Relocates

/-! ## Places in a longer text -/

section places

variable (a b : String)

def StartsWithin (source : String) (span : Span) : Prop := Boundary source span.start

theorem StartsWithin.merge {source : String} (x y : Span) (hx : StartsWithin source x) (hy : StartsWithin source y) :
    StartsWithin source (x.merge y) := Boundary.min hx hy

theorem relocates_front :
    Relocates (LineIndex.ofSource a) (LineIndex.ofSource (a ++ b)) (StartsWithin a) id id := by
  refine ⟨StartsWithin.merge, fun _ _ => rfl, ?_⟩
  rintro ⟨start, stop⟩ ⟨before, after, rfl, rfl⟩
  have hPosition := LineIndex.position_eq before (after ++ b)
  rw [← String.append_assoc, ← LineIndex.position_eq before after] at hPosition
  simp only [LineIndex.locate, id_eq, hPosition]

theorem relocates_back :
    Relocates (LineIndex.ofSource b) (LineIndex.ofSource (a ++ "\n" ++ b)) (StartsWithin b)
      (Span.shift (a.utf8ByteSize + 1)) (Location.moved (a.utf8ByteSize + 1) (a.toList.count '\n' + 1)) := by
  refine ⟨StartsWithin.merge, ?_, ?_⟩
  · intro x y
    simp only [Span.shift, Span.merge, Nat.add_min_add_right, Nat.add_max_add_right]
  · rintro ⟨start, stop⟩ ⟨before, after, rfl, rfl⟩
    have hPosition := LineIndex.position_eq (a ++ "\n" ++ before) after
    have hSize : (a ++ "\n" ++ before).utf8ByteSize = before.utf8ByteSize + (a.utf8ByteSize + 1) := by
      rw [String.utf8ByteSize_append, String.utf8ByteSize_append, Nat.add_comm]
      rfl
    have hChars : (a ++ "\n" ++ before).toList = a.toList ++ '\n' :: before.toList := by
      rw [String.toList_append, String.toList_append, List.append_assoc]
      rfl
    rw [hSize, hChars, Position.after, lastLine_append, String.append_assoc] at hPosition
    simp only [LineIndex.locate, Location.moved, Span.shift, hPosition, LineIndex.position_eq, Position.after,
      List.count_append, List.count_cons_self]
    congr 2
    omega

end places

/-! ## Accepted scripts -/

/-- Whether no line comment and no unquoted argument of a source has two opening brackets in a row. -/
def BracketFree (source : String) : Prop :=
  ∀ token ∈ Lexer.lexemes 0 source.toList, token.kind = .unquoted ∨ token.kind = .lineComment →
    ¬['[', '['] <:+: token.text.toList

/-- A text that consists of invocations can go on after a line feed. -/
theorem Invocation.Split.settled {source : String} {calls : List Invocation}
    (h : Split (tokenize source).dropLast calls) (hBrackets : BracketFree source) :
    ∀ token ∈ Lexer.lexemes 0 source.toList, token.Settled := by
  intro token hToken
  refine ⟨?_, hBrackets token hToken⟩
  intro hInvalid
  have hMem : token ∈ (tokenize source).dropLast := by
    rw [tokenize, List.dropLast_concat]
    exact List.mem_filter.mpr ⟨hToken, by simp [hInvalid, Token.Kind.isComment]⟩
  rw [h.tokens_eq] at hMem
  obtain ⟨call, hCall, hToken⟩ := List.mem_flatMap.mp hMem
  exact (h.wellFormed call hCall).kind_ne hToken hInvalid

theorem lexemes_append_line {a : String} (h : ∀ token ∈ Lexer.lexemes 0 a.toList, token.Settled) (b : String) :
    Lexer.lexemes 0 (a ++ "\n" ++ b).toList = Lexer.lexemes 0 a.toList ++
      (Lexer.lexemes 0 b.toList).map (Token.mapSpan (Span.shift (a.utf8ByteSize + 1))) := by
  have hChars : (a ++ "\n" ++ b).toList = a.toList ++ '\n' :: b.toList := by
    rw [String.toList_append, String.toList_append, List.append_assoc]
    rfl
  rw [hChars, Lexer.lexemes_append h, String.ofList_toList, Nat.add_assoc, Lexer.lexemes_add]

theorem dropLast_tokenize_append {a : String} (h : ∀ token ∈ Lexer.lexemes 0 a.toList, token.Settled) (b : String) :
    (tokenize (a ++ "\n" ++ b)).dropLast =
      (tokenize a).dropLast ++ (tokenize b).dropLast.map (Token.mapSpan (Span.shift (a.utf8ByteSize + 1))) := by
  simp only [tokenize, List.dropLast_concat]
  rw [lexemes_append_line h, List.filter_append, List.filter_map]
  rfl

namespace Derivation.IsOf

variable {script : Derivation .body} {source : String} (h : script.IsOf source)

include h

theorem uses_startsWithin : ∀ call ∈ script.calls, call.Uses (StartsWithin source) := by
  intro call hCall token hToken
  exact (spells_of_mem_tokenize (h.mem_tokenize hCall hToken)).boundary_start

end Derivation.IsOf

/-- The tree of two scripts with a line feed between them has the statements of both, those of the second one as many
bytes and lines later as there are in the first and in the line feed. -/
theorem parse_append {a b : String} {first second : Node} (hFirst : parse a = .ok first)
    (hSecond : parse b = .ok second) (hBrackets : BracketFree a) :
    ∃ placeA placeB place statements statements',
      first = .toplevel placeA statements ∧ second = .toplevel placeB statements' ∧
      parse (a ++ "\n" ++ b) = .ok (.toplevel place (statements ++
        statements'.map (Node.moved (a.utf8ByteSize + 1) (a.toList.count '\n' + 1)))) := by
  obtain ⟨scriptA, hA, rfl⟩ := exists_script_of_parse hFirst
  obtain ⟨scriptB, hB, rfl⟩ := exists_script_of_parse hSecond
  let lines := LineIndex.ofSource (a ++ "\n" ++ b)
  let shift := Span.shift (a.utf8ByteSize + 1)
  have hCalls := Derivation.calls_concat (scriptA.mapSpans id) (scriptB.mapSpans shift) (.inl rfl)
  have hNodes := Derivation.nodes_concat lines (scriptA.mapSpans id) (scriptB.mapSpans shift) (.inl rfl)
  have hIsOf : ((scriptA.mapSpans id).concat (scriptB.mapSpans shift)).IsOf (a ++ "\n" ++ b) := by
    have hFront : Invocation.Split ((tokenize a).dropLast.map (Token.mapSpan id))
        (scriptA.calls.map (Invocation.mapSpans id)) := Invocation.Split.mapSpans hA
    have hSame : Token.mapSpan id = id := rfl
    rw [hSame, List.map_id] at hFront
    rw [Derivation.IsOf, hCalls, Derivation.calls_mapSpans, Derivation.calls_mapSpans,
      dropLast_tokenize_append (Invocation.Split.settled hA hBrackets)]
    exact hFront.append (Invocation.Split.mapSpans hB)
  have hNodesA := (relocates_front a ("\n" ++ b)).nodes scriptA hA.uses_startsWithin
  have hNodesB := (relocates_back a b).nodes scriptB hB.uses_startsWithin
  rw [← String.append_assoc, ← Node.mapPlacesAll_eq, Node.mapPlacesAll_id] at hNodesA
  refine ⟨_, _, scriptPlace lines (tokenize (a ++ "\n" ++ b)) (Token.ending (a ++ "\n" ++ b)).span, _, _, rfl, rfl, ?_⟩
  rw [hIsOf.parse_eq, Derivation.tree, hNodes, hNodesA, hNodesB]
  rfl

/-- A first script that has no line feed at its end and a second one that starts in the middle of the joined text. -/
theorem parse_append_of_commented :
    let a := "set(ä [[x]y]])\r\nif(B\n \"c\\nd\")\nendif() # [no] line feed"
    let b := "include(e)\n  foo((x) \"ü\")\r\n"
    ∃ first second, parse a = .ok first ∧ parse b = .ok second ∧ BracketFree a ∧
      ∃ placeA placeB place statements statements',
        first = .toplevel placeA statements ∧ second = .toplevel placeB statements' ∧
        parse (a ++ "\n" ++ b) = .ok (.toplevel place (statements ++
          statements'.map (Node.moved (a.utf8ByteSize + 1) (a.toList.count '\n' + 1)))) := by
  intro a b
  have hFirst : (parse a).isOk = true := by decide +kernel
  have hSecond : (parse b).isOk = true := by decide +kernel
  have hBrackets : BracketFree a := by
    unfold BracketFree
    decide +kernel
  cases hA : parse a with
  | error error =>
    rw [hA] at hFirst
    cases hFirst
  | ok first =>
    cases hB : parse b with
    | error error =>
      rw [hB] at hSecond
      cases hSecond
    | ok second => exact ⟨first, second, rfl, rfl, hBrackets, parse_append hA hB hBrackets⟩

end Listfile
