import Mathlib.Computability.Language
import Mathlib.Data.List.TakeWhile
import Listfile.Proofs.Token.Concatenation
/-! # Patterns of tokens

The pattern of a kind is the regular language of the texts that it is meant for. Quoted and bracket arguments end at
the first delimiter that closes them, so that a text starts with one of them at most. The unquoted arguments and line
comments at the head of a text are the front parts of the longest one.
-/
namespace Listfile
set_option autoImplicit false

open Computability

namespace Token

def oneOf (p : Char → Prop) : Language Char := {text | ∃ c, p c ∧ text = [c]}

def escape : Language Char := {['\\']} * oneOf (· ≠ '\n')

def unquotedPart : Language Char :=
  oneOf (· ∉ [' ', '\t', '\r', '\n', '\x0c', '(', ')', '#', '"', '\\']) + escape

def quotedPart : Language Char := oneOf (· ∉ ['"', '\\']) + escape

def bracketPart : Language Char := oneOf (· ≠ ']') + {[']']} * oneOf (· ≠ ']')

def bracketed : Language Char := {['[', '[']} * bracketPart∗ * {[']', ']']}

/-- The texts that tokens of a kind are meant for. No text is meant to be invalid. -/
def Kind.pattern : Kind → Language Char
  | leftParen => {['(']}
  | rightParen => {[')']}
  | quoted => {['"']} * quotedPart∗ * {['"']}
  | bracket => bracketed
  | unquoted => unquotedPart * unquotedPart∗
  | lineComment => {['#']} * (oneOf (· ≠ '\n'))∗
  | bracketComment => {['#']} * bracketed
  | invalid | endOfText => 0

/-- Whether the pattern of a kind matches a text at the head of another one. -/
structure Matches (text : List Char) (kind : Kind) (token : List Char) : Prop where
  mem : token ∈ kind.pattern
  ne_nil : token ≠ []
  isPrefix : token <+: text

end Token

namespace Lexer

open Token

theorem mem_escape {text : List Char} : text ∈ escape ↔ ∃ c, c ≠ '\n' ∧ text = ['\\', c] := by
  rw [escape, Language.mem_mul]
  constructor
  · rintro ⟨_, rfl, _, ⟨c, hLine, rfl⟩, rfl⟩
    exact ⟨c, hLine, rfl⟩
  · rintro ⟨c, hLine, rfl⟩
    exact ⟨['\\'], rfl, [c], ⟨c, hLine, rfl⟩, rfl⟩

section star

variable {part : Language Char} {text : List Char}

@[elab_as_elim]
theorem star_induction {motive : List Char → Prop} (h : text ∈ part∗) (nil : motive [])
    (append : ∀ first rest, first ∈ part → motive rest → motive (first ++ rest)) : motive text := by
  obtain ⟨parts, rfl, hParts⟩ := Language.mem_kstar.mp h
  clear h
  induction parts with
  | nil => exact nil
  | cons first rest ih =>
    obtain ⟨hFirst, hRest⟩ := List.forall_mem_cons.mp hParts
    exact append first rest.flatten hFirst (ih hRest)

theorem append_mem_star {first : List Char} (hFirst : first ∈ part) (h : text ∈ part∗) : first ++ text ∈ part∗ := by
  obtain ⟨parts, rfl, hParts⟩ := Language.mem_kstar.mp h
  exact Language.join_mem_kstar (List.forall_mem_cons.mpr ⟨hFirst, hParts⟩)

end star

theorem matches_leftParen {text token : List Char} :
    Matches text .leftParen token ↔ ∃ cs, text = '(' :: cs ∧ token = ['('] := by
  constructor
  · rintro ⟨rfl, -, rest, rfl⟩
    exact ⟨rest, rfl, rfl⟩
  · rintro ⟨cs, rfl, rfl⟩
    exact ⟨rfl, List.cons_ne_nil _ _, cs, rfl⟩

theorem matches_rightParen {text token : List Char} :
    Matches text .rightParen token ↔ ∃ cs, text = ')' :: cs ∧ token = [')'] := by
  constructor
  · rintro ⟨rfl, -, rest, rfl⟩
    exact ⟨rest, rfl, rfl⟩
  · rintro ⟨cs, rfl, rfl⟩
    exact ⟨rfl, List.cons_ne_nil _ _, cs, rfl⟩

/-! ## Unquoted arguments -/

theorem isPlain_iff {c : Char} : isPlain c ↔ c ∉ [' ', '\t', '\r', '\n', '\x0c', '(', ')', '#', '"', '\\'] := by
  simp [isPlain, isBlank]
  tauto

theorem unquotedLength_part {part : List Char} (h : part ∈ unquotedPart) (rest : List Char) :
    unquotedLength (part ++ rest) = unquotedLength rest + part.length := by
  rcases h with ⟨c, hPlain, rfl⟩ | hEscape
  · have hNe : c ≠ '\\' := by
      rintro rfl
      simp at hPlain
    rw [List.singleton_append, unquotedLength_cons hNe, if_pos (isPlain_iff.mpr hPlain), List.length_singleton]
  · obtain ⟨c, hLine, rfl⟩ := mem_escape.mp hEscape
    exact unquotedLength_escape hLine rest

theorem unquotedLength_star {text : List Char} (h : text ∈ unquotedPart∗) (rest : List Char) :
    unquotedLength (text ++ rest) = unquotedLength rest + text.length := by
  refine star_induction h ?_ fun first more hFirst ih => ?_
  · rw [List.nil_append, List.length_nil, Nat.add_zero]
  rw [List.append_assoc, unquotedLength_part hFirst, ih, List.length_append]
  omega

theorem unquotedLength_of_star {text : List Char} (h : text ∈ unquotedPart∗) : unquotedLength text = text.length := by
  have hLength := unquotedLength_star h []
  rw [List.append_nil] at hLength
  exact hLength.trans (Nat.zero_add _)

theorem take_unquotedLength (text : List Char) : text.take (unquotedLength text) ∈ unquotedPart∗ := by
  fun_induction unquotedLength text with
  | case1 => exact Language.nil_mem_kstar _
  | case2 => exact Language.nil_mem_kstar _
  | case3 c cs hLine ih => exact append_mem_star (.inr (mem_escape.mpr ⟨c, hLine, rfl⟩)) ih
  | case4 c cs _ hPlain ih => exact append_mem_star (.inl ⟨c, isPlain_iff.mp hPlain, rfl⟩) ih
  | case5 => exact Language.nil_mem_kstar _

theorem ne_nil_of_mem_unquotedPart {part : List Char} (h : part ∈ unquotedPart) : part ≠ [] := by
  rcases h with ⟨c, -, rfl⟩ | hEscape
  · exact List.cons_ne_nil _ _
  · obtain ⟨c, -, rfl⟩ := mem_escape.mp hEscape
    exact List.cons_ne_nil _ _

theorem mem_unquoted {text : List Char} :
    text ∈ Kind.unquoted.pattern ↔ text ≠ [] ∧ unquotedLength text = text.length := by
  rw [Kind.pattern, Language.mem_mul]
  constructor
  · rintro ⟨first, hFirst, rest, hRest, rfl⟩
    exact ⟨fun hNil => ne_nil_of_mem_unquotedPart hFirst (List.append_eq_nil_iff.mp hNil).1,
      unquotedLength_of_star (append_mem_star hFirst hRest)⟩
  · rintro ⟨hNe, hLength⟩
    have hStar := take_unquotedLength text
    rw [hLength, List.take_length] at hStar
    rcases Language.mem_kstar_iff_exists_nonempty.mp hStar with ⟨parts, rfl, hParts⟩
    cases parts with
    | nil => exact absurd rfl hNe
    | cons first rest =>
      obtain ⟨hFirst, hRest⟩ := List.forall_mem_cons.mp hParts
      exact ⟨first, hFirst.1, rest.flatten, Language.join_mem_kstar fun part hPart => (hRest part hPart).1, rfl⟩

theorem unquotedLength_append_of_mem {token : List Char} (h : token ∈ Kind.unquoted.pattern) (rest : List Char) :
    unquotedLength (token ++ rest) = unquotedLength rest + token.length := by
  obtain ⟨first, hFirst, more, hMore, rfl⟩ := Language.mem_mul.mp h
  exact unquotedLength_star (append_mem_star hFirst hMore) rest

theorem length_le_unquotedLength {text token : List Char} (h : Matches text .unquoted token) :
    token.length ≤ unquotedLength text := by
  obtain ⟨hMem, -, rest, rfl⟩ := h
  rw [unquotedLength_append_of_mem hMem]
  omega

theorem matches_unquoted {text : List Char} (h : 0 < unquotedLength text) :
    Matches text .unquoted (text.take (unquotedLength text)) := by
  have hLength : (text.take (unquotedLength text)).length = unquotedLength text :=
    List.length_take_of_le (unquotedLength_le text)
  have hNe : text.take (unquotedLength text) ≠ [] := by
    rw [← List.length_pos_iff, hLength]
    exact h
  exact ⟨mem_unquoted.mpr ⟨hNe, unquotedLength_of_star (take_unquotedLength text)⟩, hNe, List.take_prefix _ _⟩

/-! ## Delimited texts -/

theorem quotedExtent_star {body : List Char} (h : body ∈ quotedPart∗) (rest : List Char) :
    quotedExtent (body ++ '"' :: rest) = .closed (body.length + 1) := by
  refine star_induction h ?_ fun first more hFirst ih => ?_
  · rw [List.nil_append, quotedExtent_cons (by decide), if_pos rfl]
    rfl
  · rw [List.append_assoc, List.length_append]
    rcases hFirst with ⟨c, hPlain, rfl⟩ | hEscape
    · rw [List.mem_cons, List.mem_singleton, not_or] at hPlain
      rw [List.singleton_append, quotedExtent_cons hPlain.2, if_neg hPlain.1, ih, Extent.shift, List.length_singleton]
      congr 1
      omega
    · obtain ⟨c, hLine, rfl⟩ := mem_escape.mp hEscape
      rw [List.cons_append, List.singleton_append, quotedExtent, if_neg hLine, ih, Extent.shift]
      congr 1
      simp only [List.length_cons, List.length_nil]
      omega

theorem quotedExtent_eq_closed {cs : List Char} {length : Nat} : quotedExtent cs = .closed length ↔
    ∃ body ∈ quotedPart∗, ∃ rest, cs = body ++ '"' :: rest ∧ length = body.length + 1 := by
  constructor
  · intro h
    fun_induction quotedExtent cs generalizing length with
    | case1 => cases h
    | case2 => cases h
    | case3 c cs hLine ih =>
      obtain ⟨inner, hInner, rfl⟩ := Extent.shift_eq_closed.mp h
      obtain ⟨body, hBody, rest, rfl, rfl⟩ := ih hInner
      exact ⟨_, append_mem_star (.inr (mem_escape.mpr ⟨c, hLine, rfl⟩)) hBody, rest, rfl, rfl⟩
    | case4 cs =>
      cases h
      exact ⟨[], Language.nil_mem_kstar _, cs, rfl, rfl⟩
    | case5 => cases h
    | case6 c cs _ hQuote hNe ih =>
      obtain ⟨inner, hInner, rfl⟩ := Extent.shift_eq_closed.mp h
      obtain ⟨body, hBody, rest, rfl, rfl⟩ := ih hInner
      exact ⟨_, append_mem_star (.inl ⟨c, by simp [hQuote, hNe], rfl⟩) hBody, rest, rfl, rfl⟩
  · rintro ⟨body, hBody, rest, rfl, rfl⟩
    exact quotedExtent_star hBody rest

theorem bracketExtent_star {body : List Char} (h : body ∈ bracketPart∗) (rest : List Char) :
    bracketExtent (body ++ ']' :: ']' :: rest) = .closed (body.length + 2) := by
  refine star_induction h rfl fun first more hFirst ih => ?_
  rw [List.append_assoc, List.length_append]
  rcases hFirst with ⟨c, hNe, rfl⟩ | ⟨_, rfl, _, ⟨c, hNe, rfl⟩, rfl⟩
  · rw [List.singleton_append, bracketExtent_cons hNe, ih, Extent.shift, List.length_singleton]
    congr 1
    omega
  · simp only [List.cons_append, List.nil_append, List.length_cons, List.length_nil]
    rw [bracketExtent, if_neg hNe, ih, Extent.shift]
    congr 1
    omega

theorem bracketExtent_eq_closed {cs : List Char} {length : Nat} : bracketExtent cs = .closed length ↔
    ∃ body ∈ bracketPart∗, ∃ rest, cs = body ++ ']' :: ']' :: rest ∧ length = body.length + 2 := by
  constructor
  · intro h
    fun_induction bracketExtent cs generalizing length with
    | case1 => cases h
    | case2 cs =>
      cases h
      exact ⟨[], Language.nil_mem_kstar _, cs, rfl, rfl⟩
    | case3 c cs hOther ih =>
      obtain ⟨inner, hInner, rfl⟩ := Extent.shift_eq_closed.mp h
      obtain ⟨body, hBody, rest, rfl, rfl⟩ := ih hInner
      exact ⟨_, append_mem_star (.inr ⟨[']'], rfl, [c], ⟨c, hOther, rfl⟩, rfl⟩) hBody, rest, rfl, rfl⟩
    | case4 => cases h
    | case5 c cs _ hNe ih =>
      obtain ⟨inner, hInner, rfl⟩ := Extent.shift_eq_closed.mp h
      obtain ⟨body, hBody, rest, rfl, rfl⟩ := ih hInner
      exact ⟨_, append_mem_star (.inl ⟨c, hNe, rfl⟩) hBody, rest, rfl, rfl⟩
  · rintro ⟨body, hBody, rest, rfl, rfl⟩
    exact bracketExtent_star hBody rest

theorem mem_quoted {text : List Char} :
    text ∈ Kind.quoted.pattern ↔ ∃ body ∈ quotedPart∗, text = '"' :: (body ++ ['"']) := by
  simp only [Kind.pattern, Language.mem_mul]
  constructor
  · rintro ⟨_, ⟨_, rfl, body, hBody, rfl⟩, _, rfl, rfl⟩
    exact ⟨body, hBody, rfl⟩
  · rintro ⟨body, hBody, rfl⟩
    exact ⟨'"' :: body, ⟨['"'], rfl, body, hBody, rfl⟩, ['"'], rfl, rfl⟩

theorem mem_bracketed {text : List Char} :
    text ∈ bracketed ↔ ∃ body ∈ bracketPart∗, text = '[' :: '[' :: (body ++ [']', ']']) := by
  simp only [bracketed, Language.mem_mul]
  constructor
  · rintro ⟨_, ⟨_, rfl, body, hBody, rfl⟩, _, rfl, rfl⟩
    exact ⟨body, hBody, rfl⟩
  · rintro ⟨body, hBody, rfl⟩
    exact ⟨'[' :: '[' :: body, ⟨['[', '['], rfl, body, hBody, rfl⟩, [']', ']'], rfl, rfl⟩

theorem matches_quoted {text token : List Char} : Matches text .quoted token ↔
    ∃ cs length, text = '"' :: cs ∧ quotedExtent cs = .closed length ∧ token = '"' :: cs.take length := by
  constructor
  · rintro ⟨hMem, -, rest, rfl⟩
    obtain ⟨body, hBody, rfl⟩ := mem_quoted.mp hMem
    refine ⟨body ++ '"' :: rest, body.length + 1, by simp, quotedExtent_star hBody rest, ?_⟩
    rw [List.take_length_add_append]
    rfl
  · rintro ⟨cs, _, rfl, hExtent, rfl⟩
    obtain ⟨body, hBody, rest, rfl, rfl⟩ := quotedExtent_eq_closed.mp hExtent
    rw [List.take_length_add_append]
    exact ⟨mem_quoted.mpr ⟨body, hBody, rfl⟩, List.cons_ne_nil _ _, rest, by simp⟩

theorem bracketed_prefix {text token : List Char} : token ∈ bracketed ∧ token <+: text ↔
    ∃ cs length, text = '[' :: '[' :: cs ∧ bracketExtent cs = .closed length ∧
      token = '[' :: '[' :: cs.take length := by
  constructor
  · rintro ⟨hMem, rest, rfl⟩
    obtain ⟨body, hBody, rfl⟩ := mem_bracketed.mp hMem
    refine ⟨body ++ ']' :: ']' :: rest, body.length + 2, by simp, bracketExtent_star hBody rest, ?_⟩
    rw [List.take_length_add_append]
    rfl
  · rintro ⟨cs, _, rfl, hExtent, rfl⟩
    obtain ⟨body, hBody, rest, rfl, rfl⟩ := bracketExtent_eq_closed.mp hExtent
    rw [List.take_length_add_append]
    exact ⟨mem_bracketed.mpr ⟨body, hBody, rfl⟩, rest, by simp⟩

theorem matches_bracket {text token : List Char} : Matches text .bracket token ↔
    ∃ cs length, text = '[' :: '[' :: cs ∧ bracketExtent cs = .closed length ∧
      token = '[' :: '[' :: cs.take length := by
  rw [← bracketed_prefix]
  constructor
  · rintro ⟨hMem, -, hPrefix⟩
    exact ⟨hMem, hPrefix⟩
  · rintro ⟨hMem, hPrefix⟩
    obtain ⟨body, -, rfl⟩ := mem_bracketed.mp hMem
    exact ⟨hMem, List.cons_ne_nil _ _, hPrefix⟩

/-! ## Comments -/

theorem mem_lineComment {text : List Char} :
    text ∈ Kind.lineComment.pattern ↔ ∃ body, text = '#' :: body ∧ '\n' ∉ body := by
  rw [Kind.pattern, Language.mem_mul]
  constructor
  · rintro ⟨_, rfl, body, hBody, rfl⟩
    refine ⟨body, rfl, ?_⟩
    refine star_induction hBody (by simp) ?_
    rintro _ rest ⟨c, hLine, rfl⟩ hRest
    simpa [hRest] using hLine.symm
  · rintro ⟨body, rfl, hBody⟩
    suffices hStar : body ∈ (oneOf (· ≠ '\n'))∗ from ⟨['#'], rfl, body, hStar, rfl⟩
    induction body with
    | nil => exact Language.nil_mem_kstar _
    | cons c rest ih =>
      rw [List.mem_cons, not_or] at hBody
      have hFirst : [c] ∈ oneOf (· ≠ '\n') := ⟨c, Ne.symm hBody.1, rfl⟩
      exact append_mem_star hFirst (ih hBody.2)

theorem matches_lineComment {text token : List Char} : Matches text .lineComment token ↔
    ∃ cs body, text = '#' :: cs ∧ body <+: cs.takeWhile (· ≠ '\n') ∧ token = '#' :: body := by
  constructor
  · rintro ⟨hMem, -, rest, rfl⟩
    obtain ⟨body, rfl, hBody⟩ := mem_lineComment.mp hMem
    refine ⟨body ++ rest, body, rfl, ?_, rfl⟩
    rw [List.takeWhile_append_of_pos fun c hc => by simpa using ne_of_mem_of_not_mem hc hBody]
    exact List.prefix_append _ _
  · rintro ⟨cs, body, rfl, hBody, rfl⟩
    refine ⟨mem_lineComment.mpr ⟨body, rfl, fun hLine => ?_⟩, List.cons_ne_nil _ _, ?_⟩
    · have hNe := List.mem_takeWhile_imp (hBody.subset hLine)
      simp at hNe
    · exact List.cons_prefix_cons.mpr ⟨rfl, hBody.trans (List.takeWhile_prefix _)⟩

theorem mem_bracketComment {text : List Char} :
    text ∈ Kind.bracketComment.pattern ↔ ∃ body ∈ bracketed, text = '#' :: body := by
  rw [Kind.pattern, Language.mem_mul]
  constructor
  · rintro ⟨_, rfl, body, hBody, rfl⟩
    exact ⟨body, hBody, rfl⟩
  · rintro ⟨body, hBody, rfl⟩
    exact ⟨['#'], rfl, body, hBody, rfl⟩

theorem matches_bracketComment {text token : List Char} : Matches text .bracketComment token ↔
    ∃ cs length, text = '#' :: '[' :: '[' :: cs ∧ bracketExtent cs = .closed length ∧
      token = '#' :: '[' :: '[' :: cs.take length := by
  constructor
  · rintro ⟨hMem, -, rest, rfl⟩
    obtain ⟨body, hBody, rfl⟩ := mem_bracketComment.mp hMem
    obtain ⟨cs, length, hText, hExtent, rfl⟩ := bracketed_prefix.mp ⟨hBody, List.prefix_append body rest⟩
    exact ⟨cs, length, congrArg _ hText, hExtent, rfl⟩
  · rintro ⟨cs, length, rfl, hExtent, rfl⟩
    obtain ⟨hMem, hPrefix⟩ := bracketed_prefix.mpr ⟨cs, length, rfl, hExtent, rfl⟩
    exact ⟨mem_bracketComment.mpr ⟨_, hMem, rfl⟩, List.cons_ne_nil _ _, List.cons_prefix_cons.mpr ⟨rfl, hPrefix⟩⟩

end Lexer
end Listfile
