import Listfile.Proofs.Token.Scanning
/-! # The lexer takes the longest match

Tokens and comments follow each other with nothing but blanks between them, and each of them is the longest match where
it starts, unless the text there is one of the three kinds at which it cannot be.
-/
namespace Listfile
set_option autoImplicit false

def Token.spelled (offset : Nat) (kind : Kind) (text : List Char) : Token :=
  ⟨kind, ⟨offset, offset + (String.ofList text).utf8ByteSize⟩, String.ofList text⟩

namespace Lexer

open Token

/-- The tokens of a text whose first character is at an offset, comments among them: blanks are skipped, and a token
starts at the first character that is none. -/
inductive Lexed : Nat → List Char → List Token → Prop
  | done {offset : Nat} : Lexed offset [] []
  | blank {offset : Nat} {c : Char} {cs : List Char} {tokens : List Token} : isBlank c →
      Lexed (offset + c.utf8Size) cs tokens → Lexed offset (c :: cs) tokens
  | token {offset : Nat} {c : Char} {cs rest : List Char} {kind : Kind} {tokens : List Token} : ¬isBlank c →
      Scans (c :: cs ++ rest) kind (c :: cs) → Lexed (spelled offset kind (c :: cs)).span.stop rest tokens →
      Lexed offset (c :: cs ++ rest) (spelled offset kind (c :: cs) :: tokens)

theorem lexed_lexemes (offset : Nat) (cs : List Char) : Lexed offset cs (lexemes offset cs) := by
  fun_induction lexemes offset cs with
  | case1 => exact .done
  | case2 offset c cs hBlank ih => exact .blank hBlank ih
  | case3 offset c cs hBlank kind length hScan text stop ih =>
    have hToken := scans_scan c cs
    rw [hScan] at hToken
    have hText : c :: cs = c :: cs.take length ++ cs.drop length := by
      rw [List.cons_append, List.take_append_drop]
    have hLexed : Lexed offset (c :: cs.take length ++ cs.drop length)
        (spelled offset kind (c :: cs.take length) :: lexemes stop (cs.drop length)) :=
      .token hBlank (hText ▸ hToken) ih
    rwa [← hText] at hLexed

/-- Each token of a source is the longest match where it starts, except for three kinds of text. -/
theorem tokens_are_longest_matches (source : String) : ∃ lexemes, Lexed 0 source.toList lexemes ∧
    tokenize source = lexemes.filter (!·.kind.isComment) ++
      [⟨.endOfText, ⟨source.utf8ByteSize, source.utf8ByteSize⟩, ""⟩] :=
  ⟨lexemes 0 source.toList, lexed_lexemes 0 source.toList, rfl⟩

/-- The text before the blank is an unquoted argument. -/
theorem open_bracket_is_invalid : tokenize "[[a b" = [⟨.invalid, ⟨0, 5⟩, "[[a b"⟩, ⟨.endOfText, ⟨5, 5⟩, ""⟩] ∧
    Matches "[[a b".toList .unquoted "[[a".toList ∧ ¬TakesLongest "[[a b".toList .invalid "[[a b".toList := by
  have hMatch : Matches "[[a b".toList .unquoted "[[a".toList :=
    ⟨mem_unquoted.mpr (by decide), by decide, by decide⟩
  refine ⟨by decide +kernel, hMatch, ?_⟩
  rintro (hLongest | ⟨-, hNone⟩)
  · exact Language.notMem_zero _ hLongest.isMatch.mem
  · exact hNone _ _ hMatch

end Lexer
end Listfile
