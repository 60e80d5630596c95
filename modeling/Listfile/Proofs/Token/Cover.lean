import Listfile.Proofs.Token.LongestMatch
/-! # Tokens cover their source

What lies between the tokens of a source is made of blanks and comments, and the text of a token is one that its kind is
meant for. The exception is an argument that starts with two brackets, is never closed, and ends with the source and a
backslash that escapes nothing: the backslash is taken for a part of it.
-/
namespace Listfile
set_option autoImplicit false

open Computability

namespace Token

/-- Blanks and complete comments, before the rest of a text. A line comment goes up to the end of its line. -/
inductive Gap : List Char → List Char → Prop
  | done {rest : List Char} : Gap [] rest
  | blank {c : Char} {gap rest : List Char} : Lexer.isBlank c → Gap gap rest → Gap (c :: gap) rest
  | bracketComment {text gap rest : List Char} : text ∈ Kind.bracketComment.pattern → Gap gap rest →
      Gap (text ++ gap) rest
  | lineComment {text gap rest : List Char} : text ∈ Kind.lineComment.pattern →
      gap ++ rest = [] ∨ (gap ++ rest).head? = some '\n' → Gap gap rest → Gap (text ++ gap) rest

/-- Tokens with gaps before, between and after them, that make up a text whose first character is at an offset. -/
inductive Covers : Nat → List Char → List Token → Prop
  | done {offset : Nat} {gap : List Char} : Gap gap [] → Covers offset gap []
  | token {offset start : Nat} {gap text rest : List Char} {kind : Kind} {tokens : List Token} :
      Gap gap (text ++ rest) → start = offset + (String.ofList gap).utf8ByteSize → text ≠ [] →
      Covers (spelled start kind text).span.stop rest tokens →
      Covers offset (gap ++ (text ++ rest)) (spelled start kind text :: tokens)

/-- An unquoted argument at the end of a source that starts with two brackets and ends with a backslash too many. -/
structure StraysToEnd (stop : Nat) (token : Token) : Prop where
  kind : token.kind = .unquoted
  stop : token.span.stop = stop
  opens : ['[', '['] <+: token.text.toList
  backslash : ∃ whole ∈ Kind.unquoted.pattern, token.text.toList = whole ++ ['\\']

namespace Covers

variable {offset : Nat} {cs : List Char} {tokens : List Token}

theorem blank {c : Char} (hBlank : Lexer.isBlank c) (h : Covers (offset + c.utf8Size) cs tokens) :
    Covers offset (c :: cs) tokens := by
  cases h with
  | done hGap => exact .done (.blank hBlank hGap)
  | token hGap hStart hNe hRest =>
    rw [← List.cons_append]
    refine .token (.blank hBlank hGap) ?_ hNe hRest
    rw [hStart, byteSize_cons, Nat.add_assoc]

/-- More of a gap before the tokens of a text. -/
theorem append {text : List Char} (hGap : ∀ gap rest, cs = gap ++ rest → Gap gap rest → Gap (text ++ gap) rest)
    (h : Covers (offset + (String.ofList text).utf8ByteSize) cs tokens) : Covers offset (text ++ cs) tokens := by
  cases h with
  | done hRest => exact .done (hGap _ [] (List.append_nil _).symm hRest)
  | token hRest hStart hNe hTokens =>
    rw [← List.append_assoc]
    refine .token (hGap _ _ rfl hRest) ?_ hNe hTokens
    rw [hStart, Lexer.byteSize_append, Nat.add_assoc]

end Covers

end Token

namespace Lexer

open Token

section scans

variable {text token rest : List Char} {kind : Kind}

theorem matches_of_scans (h : Scans text kind token) (hKind : kind ≠ .invalid) :
    Matches text kind token ∨ kind = .unquoted ∧ token = text ∧ ['[', '['] <+: text ∧
      ∃ whole ∈ Kind.unquoted.pattern, text = whole ++ ['\\'] := by
  by_cases hBracket : OpenBracket text
  · obtain ⟨hUnquoted, hToken, hWhole⟩ := (h.openBracket hBracket).resolve_left hKind
    exact .inr ⟨hUnquoted, hToken, hBracket.opens, hWhole⟩
  by_cases hComment : OpenComment text
  · exact absurd (h.openComment hComment) hKind
  by_cases hStray : StrayBackslash text
  · obtain ⟨rfl, hMatch, -⟩ := h.strayBackslash hStray
    exact .inl hMatch
  · rcases h.longest_iff.mpr ⟨hBracket, hComment, hStray⟩ with hLongest | ⟨hInvalid, -⟩
    · exact .inl hLongest.isMatch
    · exact absurd hInvalid hKind

theorem longestMatch_of_scans_line (h : Scans text .lineComment token) : LongestMatch text .lineComment token := by
  have hTakes : TakesLongest text .lineComment token := by
    refine h.longest_iff.mpr ⟨fun hOpen => ?_, fun hOpen => ?_, fun hStray => ?_⟩
    · rcases h.openBracket hOpen with hKind | ⟨hKind, -⟩ <;> cases hKind
    · cases h.openComment hOpen
    · cases (h.strayBackslash hStray).1
  rcases hTakes with hLongest | ⟨hKind, -⟩
  · exact hLongest
  · cases hKind

/-- A line comment that stopped within its line would not be the longest one. -/
theorem line_ends (h : LongestMatch (token ++ rest) .lineComment token) : rest = [] ∨ rest.head? = some '\n' := by
  cases rest with
  | nil => exact .inl rfl
  | cons c rest =>
    refine .inr (congrArg some (not_not.mp fun hNe => ?_))
    obtain ⟨body, rfl, hBody⟩ := mem_lineComment.mp h.isMatch.mem
    have hMore : '#' :: (body ++ [c]) ∈ Kind.lineComment.pattern :=
      mem_lineComment.mpr ⟨body ++ [c], rfl, by simp [hBody, Ne.symm hNe]⟩
    have hLe := h.longest .lineComment _ ⟨hMore, List.cons_ne_nil _ _, rest, by simp⟩
    simp only [List.length_cons, List.length_append, List.length_nil] at hLe
    omega

end scans

section lexed

variable {offset : Nat} {cs : List Char} {tokens : List Token}

theorem covers_of_lexed (h : Lexed offset cs tokens) : Covers offset cs (tokens.filter (!·.kind.isComment)) := by
  induction h with
  | done => exact .done .done
  | blank hBlank _ ih => exact ih.blank hBlank
  | @token offset c cs rest kind tokens _ hScans _ ih =>
    rw [List.filter_cons]
    by_cases hComment : kind.isComment
    · rw [if_neg (by simp [spelled, hComment])]
      refine ih.append fun gap after hRest hGap => ?_
      cases kind <;> cases hComment
      · have hLongest := longestMatch_of_scans_line hScans
        exact .lineComment hLongest.isMatch.mem (hRest ▸ line_ends hLongest) hGap
      · rcases matches_of_scans hScans (by decide) with hMatch | ⟨hKind, -⟩
        · exact .bracketComment hMatch.mem hGap
        · cases hKind
    · rw [if_pos (by simp [spelled, hComment])]
      have hCovers : Covers offset ([] ++ (c :: cs ++ rest)) _ :=
        .token .done (Nat.add_zero _).symm (List.cons_ne_nil c cs) ih
      rwa [List.nil_append] at hCovers

theorem not_mem_of_straysToEnd {stop : Nat} {token : Token} (h : StraysToEnd stop token) :
    token.text.toList ∉ token.kind.pattern := by
  obtain ⟨hKind, -, -, whole, hWhole, hText⟩ := h
  rw [hKind, hText, mem_unquoted, unquotedLength_append_of_mem hWhole, List.length_append]
  rintro ⟨-, hLength⟩
  have hBackslash : unquotedLength ['\\'] = 0 := rfl
  rw [hBackslash, List.length_singleton] at hLength
  omega

theorem meant_of_lexed (h : Lexed offset cs tokens) : ∀ token ∈ tokens, token.kind ≠ .invalid →
    token.text.toList ∈ token.kind.pattern ∨ StraysToEnd (offset + (String.ofList cs).utf8ByteSize) token := by
  induction h with
  | done => exact List.forall_mem_nil _
  | blank _ _ ih =>
    rw [byteSize_cons, ← Nat.add_assoc]
    exact ih
  | @token offset c cs rest kind tokens _ hScans _ ih =>
    refine List.forall_mem_cons.mpr ⟨fun hKind => ?_, ?_⟩
    · rcases matches_of_scans hScans hKind with hMatch | ⟨hUnquoted, hText, hOpens, hWhole⟩
      · exact .inl (by simpa [spelled] using hMatch.mem)
      · have hRest : rest = [] := List.self_eq_append_right.mp hText
        subst hRest
        rw [List.append_nil] at hOpens hWhole ⊢
        exact .inr ⟨hUnquoted, rfl, by simpa [spelled] using hOpens, by simpa [spelled] using hWhole⟩
    · rw [byteSize_append, ← Nat.add_assoc]
      exact ih

end lexed

/-- The first two brackets that could close a bracket argument do close it. -/
theorem not_closed_within {body : List Char} (h : body ∈ bracketPart∗) : ¬[']', ']'] <:+: body ++ [']'] := by
  have hSkip {c : Char} {text : List Char} (hNe : c ≠ ']') (hText : ¬[']', ']'] <:+: text) :
      ¬[']', ']'] <:+: c :: text := by
    rw [List.infix_cons_iff]
    rintro (hPrefix | hInfix)
    · exact hNe (List.cons_prefix_cons.mp hPrefix).1.symm
    · exact hText hInfix
  refine star_induction h (by decide) fun first rest hFirst ih => ?_
  rcases hFirst with ⟨c, hNe, rfl⟩ | ⟨_, rfl, _, ⟨c, hNe, rfl⟩, rfl⟩
  · exact hSkip hNe ih
  · rw [List.append_assoc]
    change ¬[']', ']'] <:+: ']' :: c :: (rest ++ [']'])
    rw [List.infix_cons_iff]
    rintro (hPrefix | hInfix)
    · exact hNe (List.cons_prefix_cons.mp (List.cons_prefix_cons.mp hPrefix).2).1.symm
    · exact hSkip hNe ih hInfix

theorem closed_of_mem_bracketed {text : String} (h : text.toList ∈ bracketed) :
    ∃ body, text = "[[" ++ body ++ "]]" ∧ ¬[']', ']'] <:+: (body ++ "]").toList := by
  obtain ⟨body, hBody, hText⟩ := mem_bracketed.mp h
  refine ⟨String.ofList body, String.toList_inj.mp ?_, ?_⟩
  · simp [hText]
  · simpa using not_closed_within hBody

/-- The tokens of a source, in order and without overlap, make it up together with blanks and comments, and the text of
each is one that its kind is meant for, or else the token is invalid or strays to the end of the source. -/
theorem tokens_cover_source (source : String) : ∃ tokens,
    tokenize source = tokens ++ [⟨.endOfText, ⟨source.utf8ByteSize, source.utf8ByteSize⟩, ""⟩] ∧
    (∀ token ∈ tokens, token.kind ≠ .endOfText ∧ ¬token.kind.isComment) ∧
    Token.Ascending 0 tokens ∧ (∀ token ∈ tokens, token.span.Spells source token.text) ∧
    Covers 0 source.toList tokens ∧
    (∀ token ∈ tokens, token.kind ≠ .invalid →
      (token.text.toList ∈ token.kind.pattern ↔ ¬StraysToEnd source.utf8ByteSize token)) ∧
    ∀ token ∈ tokens, token.kind = .bracket →
      ∃ body, token.text = "[[" ++ body ++ "]]" ∧ ¬[']', ']'] <:+: (body ++ "]").toList := by
  have hLexed := lexed_lexemes 0 source.toList
  have hMeant : ∀ token ∈ lexemes 0 source.toList, token.kind ≠ .invalid →
      token.text.toList ∈ token.kind.pattern ∨ StraysToEnd source.utf8ByteSize token := by
    have hAll := meant_of_lexed hLexed
    rwa [Nat.zero_add, String.ofList_toList] at hAll
  refine ⟨_, rfl, fun token hToken => ?_, ?_, fun token hToken => ?_, covers_of_lexed hLexed,
    fun token hToken hKind => ?_, fun token hToken hKind => ?_⟩
  · obtain ⟨hToken, hKeep⟩ := List.mem_filter.mp hToken
    exact ⟨kind_ne_of_mem_lexemes hToken, by simpa using hKeep⟩
  · exact (ascending_lexemes 0 source.toList).filter _
  · exact spells_of_mem_tokenize (List.mem_append_left _ hToken)
  · constructor
    · exact fun hMem hStrays => not_mem_of_straysToEnd hStrays hMem
    · exact (hMeant token (List.mem_filter.mp hToken).1 hKind).resolve_right
  · have hNotStrays : ¬StraysToEnd source.utf8ByteSize token := by
      rintro ⟨hUnquoted, -⟩
      cases hKind.symm.trans hUnquoted
    have hMem := (hMeant token (List.mem_filter.mp hToken).1 (by rw [hKind]; decide)).resolve_right hNotStrays
    rw [hKind] at hMem
    exact closed_of_mem_bracketed hMem

/-- The backslash escapes nothing, but is no token of its own. -/
theorem open_bracket_takes_backslash :
    tokenize "[[a\\" = [⟨.unquoted, ⟨0, 4⟩, "[[a\\"⟩, ⟨.endOfText, ⟨4, 4⟩, ""⟩] ∧
      "[[a\\".toList ∉ Kind.unquoted.pattern := by
  refine ⟨by decide +kernel, ?_⟩
  rw [mem_unquoted]
  decide

end Lexer
end Listfile
