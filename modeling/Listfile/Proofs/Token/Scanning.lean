import Listfile.Proofs.Token.Patterns
import Listfile.Proofs.Token.Slices
/-! # Which match is scanned

Where a token starts, what is scanned is the longest text there that the pattern of some kind matches, and of two
matches of the same text the one as a bracket argument or comment. At three kinds of text it is not: at an opening
bracket argument that is never closed, at an opening bracket comment that is never closed, and at what could be a
bracket argument or an unquoted one if a backslash follows that escapes nothing.
-/
namespace Listfile
set_option autoImplicit false

namespace Token

structure LongestMatch (text : List Char) (kind : Kind) (token : List Char) : Prop where
  isMatch : Matches text kind token
  longest : ∀ other token', Matches text other token' → token'.length ≤ token.length
  notBracket : kind = .unquoted → token ∉ Kind.bracket.pattern
  notBracketComment : kind = .lineComment → token ∉ Kind.bracketComment.pattern

/-- Whether a token is the longest match at the head of a text, or invalid where there is no match. -/
def TakesLongest (text : List Char) (kind : Kind) (token : List Char) : Prop :=
  LongestMatch text kind token ∨ kind = .invalid ∧ ∀ other token', ¬Matches text other token'

/-- A text that starts like a bracket argument which is not closed, and that is no unquoted argument as a whole. -/
structure OpenBracket (text : List Char) : Prop where
  opens : ['[', '['] <+: text
  never : ∀ token, ¬Matches text .bracket token
  goesOn : text ∉ Kind.unquoted.pattern

/-- A text that starts like a bracket comment which is not closed, and that has more than one line. -/
structure OpenComment (text : List Char) : Prop where
  opens : ['#', '[', '['] <+: text
  never : ∀ token, ¬Matches text .bracketComment token
  goesOn : '\n' ∈ text

/-- A text that starts like a bracket argument and an unquoted one at once, up to a backslash that escapes nothing. -/
def StrayBackslash (text : List Char) : Prop :=
  ∃ token rest, text = token ++ '\\' :: rest ∧ token ∈ Kind.bracket.pattern ∧ token ∈ Kind.unquoted.pattern ∧
    (rest = [] ∨ rest.head? = some '\n')

/-- What is scanned at the head of a text. -/
structure Scans (text : List Char) (kind : Kind) (token : List Char) : Prop where
  longest_iff : TakesLongest text kind token ↔ ¬OpenBracket text ∧ ¬OpenComment text ∧ ¬StrayBackslash text
  openBracket : OpenBracket text → kind = .invalid ∨
    kind = .unquoted ∧ token = text ∧ ∃ whole ∈ Kind.unquoted.pattern, text = whole ++ ['\\']
  openComment : OpenComment text → kind = .invalid
  strayBackslash : StrayBackslash text → kind = .unquoted ∧ Matches text .unquoted token ∧ Matches text .bracket token

theorem StrayBackslash.exists_matches {text : List Char} (h : StrayBackslash text) :
    ∃ token, Matches text .bracket token := by
  obtain ⟨token, rest, rfl, hMem, -⟩ := h
  obtain ⟨body, -, rfl⟩ := Lexer.mem_bracketed.mp hMem
  exact ⟨_, hMem, List.cons_ne_nil _ _, List.prefix_append _ _⟩

theorem StrayBackslash.opens {text : List Char} (h : StrayBackslash text) : ['[', '['] <+: text := by
  obtain ⟨_, hMatch⟩ := h.exists_matches
  obtain ⟨_, _, rfl, -⟩ := Lexer.matches_bracket.mp hMatch
  exact ⟨_, rfl⟩

/-! ## First characters -/

def Kind.startsWith : Kind → Char → Bool
  | leftParen, c => c = '('
  | rightParen, c => c = ')'
  | quoted, c => c = '"'
  | bracket, c => c = '['
  | unquoted, c => Lexer.isPlain c || c = '\\'
  | lineComment, c | bracketComment, c => c = '#'
  | invalid, _ | endOfText, _ => false

end Token

namespace Lexer

open Token

theorem startsWith_of_matches {c : Char} {cs token : List Char} {kind : Kind} (h : Matches (c :: cs) kind token) :
    kind.startsWith c := by
  cases kind with
  | leftParen =>
    obtain ⟨_, hText, -⟩ := matches_leftParen.mp h
    simpa [Kind.startsWith] using (List.cons.inj hText).1
  | rightParen =>
    obtain ⟨_, hText, -⟩ := matches_rightParen.mp h
    simpa [Kind.startsWith] using (List.cons.inj hText).1
  | quoted =>
    obtain ⟨_, _, hText, -⟩ := matches_quoted.mp h
    simpa [Kind.startsWith] using (List.cons.inj hText).1
  | bracket =>
    obtain ⟨_, _, hText, -⟩ := matches_bracket.mp h
    simpa [Kind.startsWith] using (List.cons.inj hText).1
  | unquoted =>
    have hLe := length_le_unquotedLength h
    have hPos := List.length_pos_of_ne_nil h.ne_nil
    by_cases hNe : c = '\\'
    · simp [Kind.startsWith, hNe]
    · rw [unquotedLength_cons hNe] at hLe
      split at hLe
      · simp [Kind.startsWith, *]
      · omega
  | lineComment =>
    obtain ⟨_, _, hText, -⟩ := matches_lineComment.mp h
    simpa [Kind.startsWith] using (List.cons.inj hText).1
  | bracketComment =>
    obtain ⟨_, _, hText, -⟩ := matches_bracketComment.mp h
    simpa [Kind.startsWith] using (List.cons.inj hText).1
  | invalid => exact absurd h.mem (Language.notMem_zero _)
  | endOfText => exact absurd h.mem (Language.notMem_zero _)

/-! ## The kinds of text -/

section kinds

variable {text token token' : List Char} {kind other : Kind}

theorem not_openComment (h : ['[', '['] <+: text) : ¬OpenComment text := by
  obtain ⟨_, rfl⟩ := h
  rintro ⟨⟨_, hText⟩, -, -⟩
  cases hText

/-- What no pattern of the kind has is not the longest match, and it is not invalid where there is a match. -/
theorem not_takesLongest (hMatch : Matches text other token') (hToken : token ∉ kind.pattern) :
    ¬TakesLongest text kind token := by
  rintro (hLongest | ⟨-, hNone⟩)
  · exact hToken hLongest.isMatch.mem
  · exact hNone _ _ hMatch

theorem scans_of_takesLongest (h : TakesLongest text kind token) (hBracket : ¬OpenBracket text)
    (hComment : ¬OpenComment text) (hStray : ¬StrayBackslash text) : Scans text kind token := by
  constructor
  · exact iff_of_true h ⟨hBracket, hComment, hStray⟩
  · exact fun hOpen => absurd hOpen hBracket
  · exact fun hOpen => absurd hOpen hComment
  · exact fun hOpen => absurd hOpen hStray

theorem scans_of_openBracket (hOpen : OpenBracket text) (hNot : ¬TakesLongest text kind token)
    (h : kind = .invalid ∨ kind = .unquoted ∧ token = text ∧ ∃ whole ∈ Kind.unquoted.pattern, text = whole ++ ['\\']) :
    Scans text kind token := by
  constructor
  · exact iff_of_false hNot fun hNone => hNone.1 hOpen
  · exact fun _ => h
  · exact fun hOther => absurd hOther (not_openComment hOpen.opens)
  · intro hOther
    obtain ⟨_, hMatch⟩ := hOther.exists_matches
    exact absurd hMatch (hOpen.never _)

theorem scans_of_openComment (hOpen : OpenComment text) (hMatch : Matches text other token') :
    Scans text .invalid token := by
  constructor
  · exact iff_of_false (not_takesLongest hMatch (Language.notMem_zero _)) fun hNone => hNone.2.1 hOpen
  · exact fun hOther => absurd hOpen (not_openComment hOther.opens)
  · exact fun _ => rfl
  · exact fun hOther => absurd hOpen (not_openComment hOther.opens)

theorem scans_of_strayBackslash (hStray : StrayBackslash text) (hUnquoted : Matches text .unquoted token)
    (hBracket : Matches text .bracket token) : Scans text .unquoted token := by
  constructor
  · refine iff_of_false ?_ fun hNone => hNone.2.2 hStray
    rintro (hLongest | ⟨hKind, -⟩)
    · exact hLongest.notBracket rfl hBracket.mem
    · cases hKind
  · exact fun hOther => absurd hBracket (hOther.never _)
  · exact fun hOther => absurd hOther (not_openComment hStray.opens)
  · exact fun _ => ⟨rfl, hUnquoted, hBracket⟩

end kinds

theorem scans_of_head {c : Char} {cs token : List Char} {kind : Kind} (h : TakesLongest (c :: cs) kind token)
    (hBracket : ¬(c = '[' ∧ cs.head? = some '[')) (hHash : c ≠ '#') : Scans (c :: cs) kind token := by
  have hNot : ¬['[', '['] <+: c :: cs := by
    rintro ⟨_, hText⟩
    cases hText
    exact hBracket ⟨rfl, rfl⟩
  have hComment : ¬OpenComment (c :: cs) := by
    rintro ⟨⟨_, hText⟩, -, -⟩
    exact hHash (List.cons.inj hText).1.symm
  exact scans_of_takesLongest h (fun hOpen => hNot hOpen.opens) hComment fun hStray => hNot hStray.opens

theorem takesLongest_scanQuoted (cs : List Char) :
    TakesLongest ('"' :: cs) (scanQuoted cs).1 ('"' :: cs.take (scanQuoted cs).2) := by
  have hOnly {other : Kind} {token : List Char} (h : Matches ('"' :: cs) other token) :
      ∃ length, quotedExtent cs = .closed length ∧ token = '"' :: cs.take length := by
    have hStarts := startsWith_of_matches h
    cases other <;> cases hStarts
    obtain ⟨_, length, hText, hExtent, rfl⟩ := matches_quoted.mp h
    cases hText
    exact ⟨length, hExtent, rfl⟩
  unfold scanQuoted
  cases hExtent : quotedExtent cs with
  | closed length =>
    refine .inl ⟨matches_quoted.mpr ⟨cs, length, rfl, hExtent, rfl⟩, fun other token h => ?_, nofun, nofun⟩
    obtain ⟨length', hExtent', rfl⟩ := hOnly h
    cases hExtent.symm.trans hExtent'
    exact Nat.le_refl _
  | unclosed length =>
    refine .inr ⟨rfl, fun other token h => ?_⟩
    obtain ⟨length', hExtent', -⟩ := hOnly h
    cases hExtent.symm.trans hExtent'

/-- A text at which no pattern but that of unquoted arguments can match. -/
theorem takesLongest_scanUnquoted {c : Char} {cs : List Char} (h : ∀ other : Kind, other.startsWith c →
      other = .unquoted ∨ other = .bracket ∧ cs.head? ≠ some '[') :
    TakesLongest (c :: cs) (scanUnquoted c cs).1 (c :: cs.take (scanUnquoted c cs).2) := by
  have hOnly {other : Kind} {token : List Char} (hMatch : Matches (c :: cs) other token) : other = .unquoted := by
    rcases h other (startsWith_of_matches hMatch) with rfl | ⟨rfl, hHead⟩
    · rfl
    · obtain ⟨_, _, hText, -⟩ := matches_bracket.mp hMatch
      cases hText
      exact absurd rfl hHead
  unfold scanUnquoted
  split
  · rename_i hNone
    refine .inr ⟨rfl, fun other token hMatch => ?_⟩
    obtain rfl := hOnly hMatch
    have hLe := length_le_unquotedLength hMatch
    have hPos := List.length_pos_of_ne_nil hMatch.ne_nil
    omega
  · rename_i length hLength
    have hMatch : Matches (c :: cs) .unquoted _ := matches_unquoted (by omega)
    rw [hLength, List.take_succ_cons] at hMatch
    refine .inl ⟨hMatch, fun other token hOther => ?_, fun _ hBracket => ?_, nofun⟩
    · obtain rfl := hOnly hOther
      have hLe := length_le_unquotedLength hOther
      have hAll := unquotedLength_le (c :: cs)
      simp only [List.length_cons, List.length_take] at hAll ⊢
      omega
    · have hOther : Matches (c :: cs) .bracket _ := ⟨hBracket, hMatch.ne_nil, hMatch.isPrefix⟩
      cases hOnly hOther

/-! ## Comments -/

theorem matches_of_hash {cs token : List Char} {other : Kind} (h : Matches ('#' :: cs) other token) :
    other = .lineComment ∧ token.length ≤ (cs.takeWhile (· ≠ '\n')).length + 1 ∨ other = .bracketComment := by
  have hStarts := startsWith_of_matches h
  cases other <;> cases hStarts
  · obtain ⟨_, body, hText, hBody, rfl⟩ := matches_lineComment.mp h
    cases hText
    exact .inl ⟨rfl, Nat.succ_le_succ hBody.length_le⟩
  · exact .inr rfl

theorem longestMatch_line {cs : List Char} (h : ∀ token, Matches ('#' :: cs) .bracketComment token →
      token.length ≤ (cs.takeWhile (· ≠ '\n')).length) :
    LongestMatch ('#' :: cs) .lineComment ('#' :: cs.takeWhile (· ≠ '\n')) := by
  have hLine : Matches ('#' :: cs) .lineComment ('#' :: cs.takeWhile (· ≠ '\n')) :=
    matches_lineComment.mpr ⟨cs, _, rfl, List.prefix_rfl, rfl⟩
  refine ⟨hLine, fun other token hOther => ?_, nofun, fun _ hBracket => ?_⟩
  · rcases matches_of_hash hOther with ⟨-, hLe⟩ | rfl
    · exact hLe
    · exact Nat.le_succ_of_le (h token hOther)
  · exact Nat.not_succ_le_self _ (h _ ⟨hBracket, hLine.ne_nil, hLine.isPrefix⟩)

theorem take_line (cs : List Char) :
    cs.take (cs.takeWhile (· ≠ '\n')).length = cs.takeWhile (· ≠ '\n') :=
  (List.prefix_iff_eq_take.mp (List.takeWhile_prefix _)).symm

theorem length_line (body : List Char) : (('[' :: '[' :: body).takeWhile (· ≠ '\n')).length =
    (body.takeWhile (· ≠ '\n')).length + 2 := by simp

theorem length_line_eq_iff {cs : List Char} : (cs.takeWhile (· ≠ '\n')).length = cs.length ↔ '\n' ∉ cs := by
  constructor
  · rintro hLength hLine
    have hAll := List.takeWhile_eq_self_iff.mp ((List.takeWhile_prefix _).eq_of_length hLength) _ hLine
    simp at hAll
  · intro hNone
    rw [List.takeWhile_eq_self_iff.mpr fun c hc => by simpa using ne_of_mem_of_not_mem hc hNone]

theorem length_of_bracketExtent {body : List Char} {length : Nat} (h : bracketExtent body = .closed length) :
    (body.take length).length = length := by
  obtain ⟨inner, rest, rfl, rfl⟩ := eq_of_bracketExtent h
  simp

theorem longestMatch_scanComment {body : List Char} {length : Nat} (h : bracketExtent body = .closed length) :
    LongestMatch ('#' :: '[' :: '[' :: body) (scanComment ('[' :: '[' :: body)).1
      ('#' :: ('[' :: '[' :: body).take (scanComment ('[' :: '[' :: body)).2) := by
  have hMatch : Matches ('#' :: '[' :: '[' :: body) .bracketComment ('#' :: '[' :: '[' :: body.take length) :=
    matches_bracketComment.mpr ⟨body, length, rfl, h, rfl⟩
  have hUnique {token : List Char} (hToken : Matches ('#' :: '[' :: '[' :: body) .bracketComment token) :
      token.length = length + 3 := by
    obtain ⟨_, _, hText, hExtent, rfl⟩ := matches_bracketComment.mp hToken
    cases hText
    cases h.symm.trans hExtent
    simp only [List.length_cons, length_of_bracketExtent h]
  rw [scanComment_closed h, ← length_line]
  split
  · rw [take_line]
    refine longestMatch_line fun token hToken => ?_
    rw [hUnique hToken, length_line]
    omega
  · refine ⟨hMatch, fun other token hOther => ?_, nofun, nofun⟩
    rw [List.take_succ_cons, List.take_succ_cons, hUnique hMatch]
    rcases matches_of_hash hOther with ⟨-, hLe⟩ | rfl
    · rw [length_line] at hLe
      omega
    · rw [hUnique hOther]

theorem scans_scanComment (cs : List Char) :
    Scans ('#' :: cs) (scanComment cs).1 ('#' :: cs.take (scanComment cs).2) := by
  have hNotBracket : ¬['[', '['] <+: '#' :: cs := by
    rintro ⟨_, hText⟩
    cases hText
  have hStray : ¬StrayBackslash ('#' :: cs) := fun hStray => hNotBracket hStray.opens
  by_cases hNever : ∃ token, Matches ('#' :: cs) .bracketComment token
  · obtain ⟨token, hMatch⟩ := hNever
    have hComment : ¬OpenComment ('#' :: cs) := fun hOpen => hOpen.never _ hMatch
    obtain ⟨body, length, hText, hExtent, -⟩ := matches_bracketComment.mp hMatch
    cases hText
    exact scans_of_takesLongest (.inl (longestMatch_scanComment hExtent)) (fun hOpen => hNotBracket hOpen.opens)
      hComment hStray
  rw [not_exists] at hNever
  have hLine : LongestMatch ('#' :: cs) .lineComment ('#' :: cs.takeWhile (· ≠ '\n')) :=
    longestMatch_line fun token hToken => absurd hToken (hNever token)
  by_cases hBody : ∃ body, cs = '[' :: '[' :: body
  · obtain ⟨body, rfl⟩ := hBody
    cases hExtent : bracketExtent body with
    | closed length => exact absurd (matches_bracketComment.mpr ⟨body, length, rfl, hExtent, rfl⟩) (hNever _)
    | unclosed length =>
      simp only [scanComment, hExtent, Extent.shift]
      split
      · rename_i hAll
        have hComment : ¬OpenComment ('#' :: '[' :: '[' :: body) := by
          rintro ⟨-, -, hLines⟩
          exact length_line_eq_iff.mp hAll (List.mem_of_ne_of_mem (by decide) hLines)
        rw [take_line]
        exact scans_of_takesLongest (.inl hLine) (fun hOpen => hNotBracket hOpen.opens) hComment hStray
      · rename_i hRest
        have hComment : OpenComment ('#' :: '[' :: '[' :: body) :=
          ⟨⟨body, rfl⟩, hNever, List.mem_cons_of_mem _ (not_not.mp fun hNone => hRest (length_line_eq_iff.mpr hNone))⟩
        exact scans_of_openComment hComment hLine.isMatch
  · have hNe (body : List Char) : cs ≠ '[' :: '[' :: body := fun hCs => hBody ⟨body, hCs⟩
    have hComment : ¬OpenComment ('#' :: cs) := by
      rintro ⟨⟨body, hText⟩, -, -⟩
      exact hNe body (List.cons.inj hText).2.symm
    rw [scanComment_of_ne hNe, take_line]
    exact scans_of_takesLongest (.inl hLine) (fun hOpen => hNotBracket hOpen.opens) hComment hStray

/-! ## Brackets -/

section bracket

variable {body : List Char}

theorem unquotedLength_opening : unquotedLength ('[' :: '[' :: body) = unquotedLength ('[' :: body) + 1 := by
  rw [unquotedLength_cons (by decide), if_pos (by decide)]

theorem matches_reach (body : List Char) :
    Matches ('[' :: '[' :: body) .unquoted ('[' :: ('[' :: body).take (unquotedLength ('[' :: body))) := by
  have hMatch : Matches ('[' :: '[' :: body) .unquoted _ :=
    matches_unquoted (by rw [unquotedLength_opening]; exact Nat.succ_pos _)
  rwa [unquotedLength_opening, List.take_succ_cons] at hMatch

theorem matches_of_opening {token : List Char} {other : Kind} (h : Matches ('[' :: '[' :: body) other token) :
    other = .unquoted ∧ token.length ≤ unquotedLength ('[' :: body) + 1 ∨
      other = .bracket ∧ ∃ length, bracketExtent body = .closed length ∧ token = '[' :: '[' :: body.take length := by
  have hStarts := startsWith_of_matches h
  cases other <;> cases hStarts
  · obtain ⟨_, length, hText, hExtent, rfl⟩ := matches_bracket.mp h
    cases hText
    exact .inr ⟨rfl, length, hExtent, rfl⟩
  · have hLe := length_le_unquotedLength h
    rw [unquotedLength_opening] at hLe
    exact .inl ⟨rfl, hLe⟩

theorem unquotedLength_backslash {rest : List Char} :
    unquotedLength ('\\' :: rest) = 0 ↔ rest = [] ∨ rest.head? = some '\n' := by
  cases rest with
  | nil => exact iff_of_true rfl (.inl rfl)
  | cons c cs =>
    by_cases hLine : c = '\n'
    · exact iff_of_true (if_pos hLine) (.inr (by rw [hLine, List.head?_cons]))
    · rw [unquotedLength_escape hLine]
      simp [hLine]

theorem strayBackslash_iff {length : Nat} (h : bracketExtent body = .closed length) :
    StrayBackslash ('[' :: '[' :: body) ↔
      length + 1 = unquotedLength ('[' :: body) ∧ ('[' :: body)[length + 1]? = some '\\' := by
  have hLength := length_of_bracketExtent h
  constructor
  · rintro ⟨token, rest, hText, hBracket, hUnquoted, hRest⟩
    obtain ⟨cs, _, hCs, hExtent, rfl⟩ := bracketed_prefix.mp ⟨hBracket, '\\' :: rest, hText.symm⟩
    cases hCs
    cases h.symm.trans hExtent
    have hReach := unquotedLength_append_of_mem hUnquoted ('\\' :: rest)
    rw [← hText, unquotedLength_opening, unquotedLength_backslash.mpr hRest] at hReach
    simp only [List.length_cons, hLength] at hReach
    refine ⟨by omega, ?_⟩
    have hBody : '[' :: body = '[' :: body.take length ++ '\\' :: rest := (List.cons.inj hText).2
    rw [hBody, List.getElem?_append_right (by simp [hLength])]
    simp [hLength]
  · rintro ⟨hReach, hNext⟩
    have hUnquoted : '[' :: ('[' :: body).take (unquotedLength ('[' :: body)) ∈ Kind.unquoted.pattern :=
      (matches_reach body).mem
    rw [← hReach] at hUnquoted
    obtain ⟨hLt, hNext⟩ := List.getElem?_eq_some_iff.mp hNext
    have hText : '[' :: '[' :: body =
        '[' :: ('[' :: body).take (length + 1) ++ '\\' :: ('[' :: body).drop (length + 2) := by
      rw [← hNext, List.cons_append, ← List.drop_eq_getElem_cons, List.take_append_drop]
    have hBracket : Matches ('[' :: '[' :: body) .bracket ('[' :: '[' :: body.take length) :=
      matches_bracket.mpr ⟨body, length, rfl, h, rfl⟩
    refine ⟨_, _, hText, hBracket.mem, hUnquoted, unquotedLength_backslash.mp ?_⟩
    have hWhole := unquotedLength_append_of_mem hUnquoted ('\\' :: ('[' :: body).drop (length + 2))
    rw [← hText, unquotedLength_opening, ← hReach] at hWhole
    simp only [List.take_succ_cons, List.length_cons, hLength] at hWhole
    omega

theorem scans_scanBracket_closed {length : Nat} (h : bracketExtent body = .closed length) :
    Scans ('[' :: '[' :: body) (scanBracket ('[' :: body)).1
      ('[' :: ('[' :: body).take (scanBracket ('[' :: body)).2) := by
  have hLength := length_of_bracketExtent h
  have hBracket : Matches ('[' :: '[' :: body) .bracket ('[' :: '[' :: body.take length) :=
    matches_bracket.mpr ⟨body, length, rfl, h, rfl⟩
  have hUnique {token : List Char} (hToken : Matches ('[' :: '[' :: body) .bracket token) :
      token = '[' :: '[' :: body.take length := by
    rcases matches_of_opening hToken with ⟨hKind, -⟩ | ⟨-, _, hExtent, rfl⟩
    · cases hKind
    · cases h.symm.trans hExtent
      rfl
  have hOpen : ¬OpenBracket ('[' :: '[' :: body) := fun hOpen => hOpen.never _ hBracket
  have hComment : ¬OpenComment ('[' :: '[' :: body) := not_openComment ⟨body, rfl⟩
  have hReach := unquotedLength_le ('[' :: body)
  have hBracketLength : ('[' :: '[' :: body.take length).length = length + 2 := by
    simp only [List.length_cons, hLength]
  have hReachLength : ('[' :: ('[' :: body).take (unquotedLength ('[' :: body))).length =
      unquotedLength ('[' :: body) + 1 := by
    rw [List.length_cons, List.length_take_of_le hReach]
  rw [scanBracket_closed h]
  split
  · rename_i hCondition
    by_cases hStray : StrayBackslash ('[' :: '[' :: body)
    · have hSame := (strayBackslash_iff h).mp hStray
      have hToken : '[' :: ('[' :: body).take (unquotedLength ('[' :: body)) = '[' :: '[' :: body.take length := by
        rw [← hSame.1, List.take_succ_cons]
      exact scans_of_strayBackslash hStray (matches_reach body) (hToken ▸ hBracket)
    · have hLonger : length + 1 < unquotedLength ('[' :: body) :=
        hCondition.resolve_right fun hSame => hStray ((strayBackslash_iff h).mpr hSame)
      refine scans_of_takesLongest (.inl ⟨matches_reach body, fun other token hOther => ?_, fun _ hMem => ?_, nofun⟩)
        hOpen hComment hStray
      · rw [hReachLength]
        rcases matches_of_opening hOther with ⟨-, hLe⟩ | ⟨rfl, -⟩
        · exact hLe
        · rw [hUnique hOther, hBracketLength]
          omega
      · have hSame := congrArg List.length (hUnique ⟨hMem, List.cons_ne_nil _ _, (matches_reach body).isPrefix⟩)
        rw [hReachLength, hBracketLength] at hSame
        omega
  · rename_i hCondition
    rw [not_or] at hCondition
    have hStray : ¬StrayBackslash ('[' :: '[' :: body) := fun hStray =>
      hCondition.2 ((strayBackslash_iff h).mp hStray)
    rw [List.take_succ_cons]
    refine scans_of_takesLongest (.inl ⟨hBracket, fun other token hOther => ?_, nofun, nofun⟩) hOpen hComment hStray
    rw [hBracketLength]
    rcases matches_of_opening hOther with ⟨-, hLe⟩ | ⟨rfl, -⟩
    · omega
    · rw [hUnique hOther, hBracketLength]

theorem scans_scanBracket_unclosed {length : Nat} (h : bracketExtent body = .unclosed length) :
    Scans ('[' :: '[' :: body) (scanBracket ('[' :: body)).1
      ('[' :: ('[' :: body).take (scanBracket ('[' :: body)).2) := by
  have hNever (token : List Char) : ¬Matches ('[' :: '[' :: body) .bracket token := by
    intro hToken
    obtain ⟨_, _, hText, hExtent, -⟩ := matches_bracket.mp hToken
    cases hText
    cases h.symm.trans hExtent
  have hWhole : '[' :: '[' :: body ∈ Kind.unquoted.pattern ↔ unquotedLength ('[' :: body) = ('[' :: body).length := by
    rw [mem_unquoted, unquotedLength_opening]
    simp
  simp only [scanBracket, List.tail_cons, h, Extent.shift]
  by_cases hAll : '[' :: '[' :: body ∈ Kind.unquoted.pattern
  · have hEnd : ('[' :: body).drop (unquotedLength ('[' :: body)) = [] :=
      List.drop_eq_nil_of_le (Nat.le_of_eq (hWhole.mp hAll).symm)
    have hLongest : LongestMatch ('[' :: '[' :: body) .unquoted ('[' :: '[' :: body) := by
      refine ⟨⟨hAll, List.cons_ne_nil _ _, List.prefix_rfl⟩, fun other token hOther => ?_, fun _ hMem => ?_, ?_⟩
      · exact hOther.isPrefix.length_le
      · exact hNever _ ⟨hMem, List.cons_ne_nil _ _, List.prefix_rfl⟩
      · intro hKind
        cases hKind
    rw [if_pos (.inl hEnd), List.take_length]
    refine scans_of_takesLongest (.inl hLongest) (fun hOpen => hOpen.goesOn hAll) (not_openComment ⟨body, rfl⟩) ?_
    intro hStray
    obtain ⟨_, hMatch⟩ := hStray.exists_matches
    exact hNever _ hMatch
  · have hOpen : OpenBracket ('[' :: '[' :: body) := ⟨⟨body, rfl⟩, hNever, hAll⟩
    split
    · rename_i hCondition
      have hLast : ('[' :: body).drop (unquotedLength ('[' :: body)) = ['\\'] := by
        refine hCondition.resolve_left fun hEnd => hAll (hWhole.mpr ?_)
        exact Nat.le_antisymm (unquotedLength_le ('[' :: body)) (List.drop_eq_nil_iff.mp hEnd)
      rw [List.take_length]
      refine scans_of_openBracket hOpen (not_takesLongest (matches_reach body) hAll) (.inr ⟨rfl, rfl, ?_⟩)
      refine ⟨_, (matches_reach body).mem, ?_⟩
      rw [List.cons_append, ← hLast, List.take_append_drop]
    · exact scans_of_openBracket hOpen (not_takesLongest (matches_reach body) (Language.notMem_zero _)) (.inl rfl)

end bracket

/-! ## All scanners -/

theorem scans_scan (c : Char) (cs : List Char) :
    Scans (c :: cs) (scan c cs).1 (c :: cs.take (scan c cs).2) := by
  unfold scan
  split_ifs with hLeft hRight hQuote hHash hBracket
  · subst hLeft
    have hMatch : Matches ('(' :: cs) .leftParen ['('] := matches_leftParen.mpr ⟨cs, rfl, rfl⟩
    refine scans_of_head (.inl ⟨hMatch, fun other token hOther => ?_, nofun, nofun⟩) (by simp) (by decide)
    have hStarts := startsWith_of_matches hOther
    cases other <;> cases hStarts
    obtain ⟨_, -, rfl⟩ := matches_leftParen.mp hOther
    exact Nat.le_refl _
  · subst hRight
    have hMatch : Matches (')' :: cs) .rightParen [')'] := matches_rightParen.mpr ⟨cs, rfl, rfl⟩
    refine scans_of_head (.inl ⟨hMatch, fun other token hOther => ?_, nofun, nofun⟩) (by simp) (by decide)
    have hStarts := startsWith_of_matches hOther
    cases other <;> cases hStarts
    obtain ⟨_, -, rfl⟩ := matches_rightParen.mp hOther
    exact Nat.le_refl _
  · subst hQuote
    exact scans_of_head (takesLongest_scanQuoted cs) (by simp) (by decide)
  · subst hHash
    exact scans_scanComment cs
  · obtain ⟨rfl, hBody⟩ := hBracket
    obtain ⟨body, rfl⟩ := List.head?_eq_some_iff.mp hBody
    cases hExtent : bracketExtent body with
    | closed length => exact scans_scanBracket_closed hExtent
    | unclosed length => exact scans_scanBracket_unclosed hExtent
  · refine scans_of_head (takesLongest_scanUnquoted fun other hStarts => ?_) hBracket hHash
    cases other <;> simp [Kind.startsWith, hLeft, hRight, hQuote, hHash] at hStarts ⊢
    exact fun hHead => hBracket ⟨hStarts, hHead⟩

end Lexer
end Listfile
