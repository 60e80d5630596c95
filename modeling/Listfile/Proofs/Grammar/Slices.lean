import Listfile.Proofs.Grammar.Concatenation
import Listfile.Proofs.Grammar.Statements
import Listfile.Proofs.Token.Slices
/-! # Statements that are scripts of their own

The text of a statement, cut out of an accepted script, is an accepted script. Its only statement is the one that the
script has there, with all places counted from its start. As for scripts one after the other, no line comment and no
unquoted argument may have a `[[` in it.
-/
namespace Listfile
set_option autoImplicit false

/-! ## Tokens of a slice -/

/-- Between the start of a token and a closing parenthesis, a source has the tokens of its text there. -/
theorem tokensWithin_slice {source body : String} {span : Span} (hSpells : span.Spells source (body ++ ")"))
    (hSettled : ∀ token ∈ Lexer.lexemes 0 source.toList, token.Settled) {first last : Token}
    (hFirst : first ∈ Lexer.lexemes 0 source.toList) (hStart : first.span.start = span.start)
    (hLast : last ∈ Lexer.lexemes 0 source.toList) (hStop : last.span.start = span.start + body.utf8ByteSize) :
    tokensWithin source span = (tokenize (body ++ ")")).dropLast.map (Token.mapSpan (Span.shift span.start)) := by
  obtain ⟨before, after, rfl, rfl⟩ := hSpells
  have hChars : (before ++ (body ++ ")") ++ after).toList =
      before.toList ++ (body.toList ++ ')' :: after.toList) := by
    simp
  have hBody : body.toList ++ [')'] = (body ++ ")").toList := by simp
  rw [hChars] at hSettled hFirst hLast
  obtain ⟨front, back, hLexemes, hFront, hBack⟩ := Lexer.lexemes_slice hSettled hFirst (by simpa using hStart) hLast
    (by simpa using hStop)
  have hMiddle := Lexer.lexemes_add 0 before.utf8ByteSize (body ++ ")").toList
  rw [Nat.zero_add] at hMiddle
  rw [String.ofList_toList, hBody, hMiddle] at hLexemes
  rw [String.ofList_toList] at hFront
  rw [String.ofList_toList, String.ofList_toList] at hBack
  have hTokens : (tokenize (before ++ (body ++ ")") ++ after)).dropLast =
      front.filter (!·.kind.isComment) ++
        ((tokenize (body ++ ")")).dropLast.map (Token.mapSpan (Span.shift before.utf8ByteSize)) ++
          back.filter (!·.kind.isComment)) := by
    rw [tokenize, tokenize, List.dropLast_concat, List.dropLast_concat, hChars, hLexemes, List.filter_append,
      List.filter_append, List.filter_map]
    rfl
  have hAscending := ascending_dropLast (before ++ (body ++ ")") ++ after)
  rw [hTokens] at hAscending
  rw [tokensWithin, hTokens, filter_covers hAscending]
  · intro token hToken
    exact hFront token (List.mem_filter.mp hToken).1
  · intro token hToken
    obtain ⟨inner, hInner, rfl⟩ := List.mem_map.mp hToken
    have hWithin := (within_of_mem_tokenize (List.dropLast_subset _ hInner)).2
    show before.utf8ByteSize ≤ inner.span.start + before.utf8ByteSize ∧
      inner.span.stop + before.utf8ByteSize ≤ before.utf8ByteSize + (body ++ ")").utf8ByteSize
    omega
  · intro token hToken
    have hLe := hBack token (List.mem_filter.mp hToken).1
    show before.utf8ByteSize + (body ++ ")").utf8ByteSize ≤ token.span.start
    rw [String.utf8ByteSize_append]
    exact hLe

/-! ## Places in a slice -/

/-- The span of a slice that starts at an offset, for a span of the text. -/
def Span.unshift (bytes : Nat) (span : Span) : Span := ⟨span.start - bytes, span.stop - bytes⟩

theorem Span.unshift_shift (bytes : Nat) (span : Span) : (span.shift bytes).unshift bytes = span := by
  simp [shift, unshift]

/-- Whether a span of a text starts in a slice that starts at the offset. -/
def Span.StartsInSlice (bytes : Nat) (slice : String) (span : Span) : Prop :=
  ∃ inner, StartsWithin slice inner ∧ span = inner.shift bytes

theorem Span.StartsInSlice.merge {bytes : Nat} {slice : String} (a b : Span) (ha : a.StartsInSlice bytes slice)
    (hb : b.StartsInSlice bytes slice) : (a.merge b).StartsInSlice bytes slice := by
  obtain ⟨a, ha, rfl⟩ := ha
  obtain ⟨b, hb, rfl⟩ := hb
  refine ⟨a.merge b, StartsWithin.merge a b ha hb, ?_⟩
  simp only [shift, Span.merge, Nat.add_min_add_right, Nat.add_max_add_right]

theorem Location.seenFrom_after {origin : Location} {before : List Char} (h : origin.position = .after before)
    (front : List Char) (span : Span) :
    origin.seenFrom ⟨span.shift origin.span.start, .after (before ++ front)⟩ = ⟨span, .after front⟩ := by
  have hSpan : (⟨(span.shift origin.span.start).start - origin.span.start,
      (span.shift origin.span.start).stop - origin.span.start⟩ : Span) = span := Span.unshift_shift _ span
  have hCount : (Position.after front).line = front.count '\n' + 1 := rfl
  have hFirst : 0 < (Position.after before).line ∧ 0 < (Position.after before).column :=
    ⟨Nat.succ_pos _, Nat.succ_pos _⟩
  have hAppend := Position.line_after_append before front
  have hLine : (Position.after (before ++ front)).line - ((Position.after before).line - 1) =
      (Position.after front).line := by omega
  simp only [seenFrom, h, hSpan, hLine]
  by_cases hFront : '\n' ∈ front
  · have hPos : 0 < front.count '\n' := List.count_pos_iff.mpr hFront
    rw [if_neg (by omega), Position.column_after_of_mem before hFront]
  · have hZero : front.count '\n' = 0 := List.count_eq_zero.mpr hFront
    have hColumns := Position.column_after_of_notMem before hFront
    have hColumn : (Position.after (before ++ front)).column - ((Position.after before).column - 1) =
        (Position.after front).column := by omega
    rw [if_pos (by omega), hColumn]

theorem relocates_slice (before slice after : String) {origin : Location}
    (hStart : origin.span.start = before.utf8ByteSize) (hPosition : origin.position = .after before.toList) :
    Relocates (LineIndex.ofSource (before ++ slice ++ after)) (LineIndex.ofSource slice)
      (Span.StartsInSlice before.utf8ByteSize slice) (Span.unshift before.utf8ByteSize) origin.seenFrom := by
  refine ⟨Span.StartsInSlice.merge, ?_, ?_⟩
  · intro a b
    simp only [Span.unshift, Span.merge]
    congr 1 <;> omega
  · rintro _ ⟨⟨start, stop⟩, ⟨front, rest, rfl, rfl⟩, rfl⟩
    have hBefore := LineIndex.position_eq (before ++ front) (rest ++ after)
    rw [String.toList_append] at hBefore
    have hSource : before ++ (front ++ rest) ++ after = before ++ front ++ (rest ++ after) := by
      simp only [String.append_assoc]
    have hSize : front.utf8ByteSize + before.utf8ByteSize = (before ++ front).utf8ByteSize := by
      rw [String.utf8ByteSize_append, Nat.add_comm]
    have hSeen := Location.seenFrom_after hPosition front.toList ⟨front.utf8ByteSize, stop⟩
    rw [hStart, ← hBefore] at hSeen
    rw [Span.unshift_shift, LineIndex.locate, LineIndex.locate, LineIndex.position_eq, ← hSeen, hSource, ← hSize]
    rfl

/-! ## A statement alone -/

theorem exists_slice {source : String} (hSettled : ∀ token ∈ Lexer.lexemes 0 source.toList, token.Settled)
    {first last : Token} {inner : List Token} (hLast : last.kind = .rightParen)
    (hCovers : tokensWithin source ⟨first.span.start, last.span.stop⟩ = first :: inner ++ [last]) :
    ∃ slice, Span.Spells ⟨first.span.start, last.span.stop⟩ source slice ∧
      first :: inner ++ [last] = (tokenize slice).dropLast.map (Token.mapSpan (Span.shift first.span.start)) := by
  have hAscending : Token.Ascending 0 (first :: inner ++ [last]) := by
    rw [← hCovers]
    exact (ascending_dropLast source).filter _
  have hTokens : ∀ token ∈ first :: inner ++ [last], token ∈ tokenize source ∧
      token ∈ Lexer.lexemes 0 source.toList := by
    intro token hToken
    rw [← hCovers] at hToken
    have hMem := (List.mem_filter.mp hToken).1
    have hSource := List.dropLast_subset _ hMem
    exact ⟨hSource, mem_lexemes_of_mem_tokenize hSource (kind_ne_of_mem_dropLast token hMem)⟩
  obtain ⟨hFirstMem, hFirst⟩ := hTokens first List.mem_cons_self
  obtain ⟨hLastMem, hLastLexeme⟩ := hTokens last (by simp)
  have hSpells := spells_of_mem_tokenize hLastMem
  rw [Lexer.text_of_rightParen hLastLexeme hLast] at hSpells
  have hLe : first.span.stop ≤ last.span.start := (hAscending.2.2.of_mem (by simp)).1
  obtain ⟨middle, hSlice⟩ := (spells_of_mem_tokenize hFirstMem).join hSpells hLe
  have hStop : last.span.start = first.span.start + (first.text ++ middle).utf8ByteSize := by
    obtain ⟨_, _, -, hParen⟩ := hSpells
    obtain ⟨_, _, -, hWhole⟩ := hSlice
    have hSize : (first.text ++ middle ++ ")").utf8ByteSize = (first.text ++ middle).utf8ByteSize + 1 :=
      String.utf8ByteSize_append
    have hParenSize : ")".utf8ByteSize = 1 := rfl
    injection hWhole with hStart hEnd
    rw [hParen] at hEnd ⊢
    simp only at hEnd ⊢
    omega
  refine ⟨_, hSlice, ?_⟩
  rw [← hCovers]
  exact tokensWithin_slice hSlice hSettled hFirst rfl hLastLexeme hStop

/-- The derivation of a statement alone, at the spans that it has in its slice. -/
def Derivation.aloneFrom (bytes : Nat) (statement : Derivation .statement) : Derivation .body :=
  .append (statement.mapSpans (Span.unshift bytes)) .empty

theorem Derivation.isOf_aloneFrom {statement : Derivation .statement} {slice : String} {bytes : Nat}
    (hWellFormed : ∀ call ∈ statement.calls, call.WellFormed)
    (hTokens : statement.calls.flatMap Invocation.tokens =
      (tokenize slice).dropLast.map (Token.mapSpan (Span.shift bytes))) :
    (statement.aloneFrom bytes).IsOf slice := by
  have hSplit : Invocation.Split (statement.calls.flatMap Invocation.tokens) statement.calls := ⟨hWellFormed, rfl⟩
  have hMoved : Invocation.Split ((statement.calls.flatMap Invocation.tokens).map (Token.mapSpan (Span.unshift bytes)))
      (statement.calls.map (Invocation.mapSpans (Span.unshift bytes))) := hSplit.mapSpans
  have hBack : (Token.mapSpan (Span.unshift bytes)) ∘ (Token.mapSpan (Span.shift bytes)) = id := by
    funext token
    obtain ⟨kind, span, text⟩ := token
    simp only [Function.comp_apply, Token.mapSpan, Span.unshift_shift, id]
  rw [hTokens, List.map_map, hBack, List.map_id] at hMoved
  rw [Derivation.IsOf, aloneFrom, calls, calls, List.append_nil, calls_mapSpans]
  exact hMoved

theorem Derivation.nodes_aloneFrom {statement : Derivation .statement} {before slice after : String} {node : Node}
    (hNode : statement.nodes (LineIndex.ofSource (before ++ slice ++ after)) = [node])
    (hStart : node.span.start = before.utf8ByteSize)
    (hUses : ∀ call ∈ statement.calls, call.Uses (Span.StartsInSlice before.utf8ByteSize slice)) :
    (statement.aloneFrom before.utf8ByteSize).nodes (LineIndex.ofSource slice) = [node.alone] := by
  have hPlaced : node.PlacedIn (LineIndex.ofSource (before ++ slice ++ after))
      (Span.StartsInSlice before.utf8ByteSize slice) :=
    (statement.placed_nodes Span.StartsInSlice.merge hUses node (hNode ▸ List.mem_cons_self)).self
  have hPosition : node.place.position = .after before.toList := by
    rw [hPlaced.2.2, LineIndex.locate, hStart, String.append_assoc, LineIndex.position_eq]
  have hRelocates := relocates_slice before slice after hStart hPosition
  rw [aloneFrom, nodes, nodes, List.append_nil, hRelocates.nodes statement hUses, hNode]
  rfl

theorem Derivation.IsOf.parse_alone {script : Derivation .body} {source : String} (h : script.IsOf source)
    (hBrackets : BracketFree source) {node : Node} (hNode : node.StatementOf (LineIndex.ofSource source) script.calls) :
    ∃ slice, node.span.Spells source slice ∧ ∃ place, parse slice = .ok (.toplevel place [node.alone]) := by
  obtain ⟨statement, hNodes, hInfix⟩ := hNode
  obtain ⟨name, inner, last, hTokens, hLast, hSpan, hCovers⟩ := h.covers_statement hNodes hInfix
  rw [hSpan] at hCovers
  obtain ⟨slice, hSlice, hEq⟩ := exists_slice (Invocation.Split.settled h hBrackets) (h.wellFormed last hLast).closing hCovers
  -- The tokens of the slice are those of the statement, so moving these back derives the slice.
  have hOwn := hTokens.trans hEq
  have hIsOf := isOf_aloneFrom (fun call hCall => h.wellFormed call (hInfix.subset hCall)) hOwn
  have hUses : ∀ call ∈ statement.calls, call.Uses (Span.StartsInSlice name.span.start slice) := by
    intro call hCall token hToken
    have hMem := List.mem_flatMap_of_mem hCall hToken
    rw [hOwn] at hMem
    obtain ⟨inner, hInner, rfl⟩ := List.mem_map.mp hMem
    exact ⟨inner.span, (spells_of_mem_tokenize (List.dropLast_subset _ hInner)).boundary_start, rfl⟩
  refine ⟨slice, hSpan ▸ hSlice, scriptPlace (LineIndex.ofSource slice) (tokenize slice) (Token.ending slice).span, ?_⟩
  obtain ⟨before, after, rfl, hBefore⟩ := hSlice
  injection hBefore with hStart
  rw [hStart] at hUses hIsOf
  rw [hIsOf.parse_eq, tree, nodes_aloneFrom hNodes (by rw [hSpan, hStart]) hUses]

/-- Every statement of an accepted script is a script of its own: the text at its span is accepted, and the tree has
the statement alone, as it is seen from its own place. -/
theorem parse_statement {source : String} {root parent node : Node} {path : Path} (hParse : parse source = .ok root)
    (hBrackets : BracketFree source) (hParent : root.At path parent) (hNode : node ∈ parent.statements) :
    ∃ slice, node.span.Spells source slice ∧ ∃ place, parse slice = .ok (.toplevel place [node.alone]) := by
  obtain ⟨script, hIsOf, rfl⟩ := exists_script_of_parse hParse
  have hLists : (script.tree source).Everywhere
      (Node.ListsStatements (LineIndex.ofSource source) script.calls) := by
    refine Node.everywhere_toplevel.mpr ⟨?_, script.lists_nodes _⟩
    have hStatements : (script.tree source).statements = script.nodes (LineIndex.ofSource source) := List.append_nil _
    intro statement hStatement
    rw [← Derivation.tree, hStatements] at hStatement
    exact script.statementOf_of_mem _ statement hStatement
  exact hIsOf.parse_alone hBrackets (hLists path parent hParent node hNode)

/-- A loop in an arm of a conditional, on two lines and with characters of several bytes before and within it. -/
theorem parse_statement_of_nested :
    let source := "# ü [no] end\nset(ä)\nif(B)  foreach(c \"ü\n\")\n    foo((c)) # d\n  endforeach(\n)\nendif()\n"
    let path := [⟨.statements, 1⟩, ⟨.ifClause, 0⟩]
    ∃ root parent node, parse source = .ok root ∧ BracketFree source ∧ root.At path parent ∧
      node ∈ parent.statements ∧
      ∃ slice, node.span.Spells source slice ∧ ∃ place, parse slice = .ok (.toplevel place [node.alone]) := by
  intro source path
  have hDeep : ((parse source).toOption.bind fun root =>
      (root.nodeAt? path).bind fun parent => parent.statements.head?).isSome = true := by decide +kernel
  have hBrackets : BracketFree source := by
    unfold BracketFree
    decide +kernel
  cases hParse : parse source with
  | error error =>
    rw [hParse] at hDeep
    cases hDeep
  | ok root =>
    rw [hParse] at hDeep
    obtain ⟨node, hFound⟩ : ∃ node, ((root.nodeAt? path).bind fun parent => parent.statements.head?) = some node :=
      Option.isSome_iff_exists.mp hDeep
    obtain ⟨parent, hParent, hHead⟩ := Option.bind_eq_some_iff.mp hFound
    have hAt := Node.nodeAt?_eq_some.mp hParent
    have hNode := List.mem_of_head? hHead
    exact ⟨root, parent, node, rfl, hBrackets, hAt, hNode, parse_statement hParse hBrackets hAt hNode⟩

end Listfile
