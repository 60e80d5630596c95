import Listfile.Assignment
import Listfile.Proofs.Grammar.Origins
import Listfile.Proofs.Reference.Expansion
import Listfile.Proofs.SymbolTable.History
/-! # Words and references

The type of an unquoted word says what the scan for references finds in its text: nothing in a literal one, one
reference that is the whole text, or something else. So a call assigns a value exactly if there is no `${` in those of
its two arguments that were written without delimiters.
-/
namespace Listfile
set_option autoImplicit false

/-! ## The type of a text -/

namespace WordType

theorem opensReference_iff {cs : List Char} : opensReference cs = true ↔ ['$', '{'] <:+: cs := by
  fun_induction opensReference cs with
  | case1 rest => exact iff_of_true rfl ⟨[], rest, rfl⟩
  | case2 c cs hOther ih =>
    have hPrefix : ¬['$', '{'] <+: c :: cs := by
      rintro ⟨rest, hRest⟩
      obtain ⟨rfl, hTail⟩ := List.cons.inj hRest
      exact hOther rest rfl hTail.symm
    rw [ih, List.infix_cons_iff, or_iff_right hPrefix]
  | case3 => simp

theorem isReference_iff {cs : List Char} :
    isReference cs = true ↔ ∃ name, cs = '$' :: '{' :: (name ++ ['}']) ∧ '}' ∉ name := by
  constructor
  · intro h
    unfold isReference at h
    split at h
    · rename_i rest
      refine ⟨rest.takeWhile (· ≠ '}'), ?_, fun hMem => ?_⟩
      · rw [← of_decide_eq_true h, List.takeWhile_append_dropWhile]
      · simpa using List.mem_takeWhile_imp hMem
    · cases h
  · rintro ⟨name, rfl, hName⟩
    have hAll : ∀ c ∈ name, decide (c ≠ '}') = true := fun c hMem => decide_eq_true (ne_of_mem_of_not_mem hMem hName)
    rw [isReference, List.dropWhile_append_of_pos hAll]
    rfl

theorem not_opens_of_isNumber {cs : List Char} (h : isNumber cs = true) : ¬['$', '{'] <:+: cs := by
  intro hInfix
  have hMem : '$' ∈ cs := hInfix.subset List.mem_cons_self
  rw [isNumber, Bool.and_eq_true, List.all_eq_true] at h
  exact absurd (h.2 _ hMem) (by decide)

end WordType

/-- Whether a reference is at the start of a text and ends where the text does. -/
def Reference.IsWhole (reference : Reference) (text : String) : Prop :=
  reference.start = 0 ∧ reference.stop = text.utf8ByteSize

instance (reference : Reference) (text : String) : Decidable (reference.IsWhole text) :=
  inferInstanceAs (Decidable (_ ∧ _))

theorem Reference.IsFirstOf.isWhole_iff {reference : Reference} {text : String} (h : reference.IsFirstOf text) :
    reference.IsWhole text ↔ reference.before = "" ∧ reference.after = "" := by
  have hSize := congrArg String.utf8ByteSize h.text_eq
  rw [String.utf8ByteSize_append, String.utf8ByteSize_append] at hSize
  rw [IsWhole, IsFirstOf.stop_eq, ← String.utf8ByteSize_eq_zero_iff, ← String.utf8ByteSize_eq_zero_iff, start]
  omega

namespace WordType

variable {text : String}

theorem isReference_toList_iff : isReference text.toList = true ↔
    ∃ reference, Reference.scan text = .found reference ∧ reference.IsWhole text := by
  rw [isReference_iff]
  constructor
  · rintro ⟨name, hText, hName⟩
    have hFirst : Reference.IsFirstOf ⟨"", String.ofList name, ""⟩ text := by
      refine ⟨?_, by simp, by simpa using hName⟩
      rw [← String.toList_inj, hText]
      simp [Reference.written]
    exact ⟨_, Reference.scan_eq_found_iff.mpr hFirst, hFirst.isWhole_iff.mpr ⟨rfl, rfl⟩⟩
  · rintro ⟨reference, hScan, hWhole⟩
    have hFirst := Reference.scan_eq_found_iff.mp hScan
    obtain ⟨hBefore, hAfter⟩ := hFirst.isWhole_iff.mp hWhole
    refine ⟨reference.name.toList, ?_, hFirst.closing⟩
    rw [hFirst.text_eq, hBefore, hAfter]
    simp [Reference.written]

theorem ofUnquoted_of_opens (h : ['$', '{'] <:+: text.toList) :
    ofUnquoted text = if isReference text.toList then reference else compound := by
  have hNumber : isNumber text.toList = false := Bool.eq_false_iff.mpr fun hNumber => not_opens_of_isNumber hNumber h
  simp only [ofUnquoted, hNumber, opensReference_iff.mpr h, Bool.false_eq_true, if_false, if_true]

/-! What the scan finds in a text decides its type, up to what a literal text looks like. -/

theorem ofUnquoted_of_absent (h : Reference.scan text = .absent) :
    ofUnquoted text = number ∨ ofUnquoted text = unquoted := by
  have hReference : isReference text.toList = false := by
    rw [Bool.eq_false_iff]
    intro hReference
    obtain ⟨reference, hFound, -⟩ := isReference_toList_iff.mp hReference
    cases h.symm.trans hFound
  have hOpens : opensReference text.toList = false :=
    Bool.eq_false_iff.mpr fun hOpens => Reference.scan_eq_absent_iff.mp h (opensReference_iff.mp hOpens)
  simp only [ofUnquoted, hReference, hOpens, Bool.false_eq_true, if_false]
  split
  · exact .inl rfl
  · exact .inr rfl

theorem ofUnquoted_of_unterminated (h : Reference.scan text = .unterminated) : ofUnquoted text = compound := by
  have hOpens : ['$', '{'] <:+: text.toList := Reference.opens_of_scan_ne (by simp [h])
  rw [ofUnquoted_of_opens hOpens, if_neg]
  intro hReference
  obtain ⟨reference, hFound, -⟩ := isReference_toList_iff.mp hReference
  cases h.symm.trans hFound

theorem ofUnquoted_of_found {found : Reference} (h : Reference.scan text = .found found) :
    ofUnquoted text = if found.IsWhole text then reference else compound := by
  have hOpens : ['$', '{'] <:+: text.toList := Reference.opens_of_scan_ne (by simp [h])
  have hWhole : isReference text.toList = true ↔ found.IsWhole text := by
    rw [isReference_toList_iff, h]
    simp
  rw [ofUnquoted_of_opens hOpens]
  simp only [hWhole]

theorem isLiteral_ofUnquoted : (ofUnquoted text).isLiteral = true ↔ ¬['$', '{'] <:+: text.toList := by
  rw [← Reference.scan_eq_absent_iff]
  cases hScan : Reference.scan text with
  | absent => rcases ofUnquoted_of_absent hScan with hType | hType <;> simp [hType, isLiteral]
  | unterminated => simp [ofUnquoted_of_unterminated hScan, isLiteral]
  | found found =>
    rw [ofUnquoted_of_found hScan]
    split <;> simp [isLiteral]

end WordType

/-! ## Arguments of an assignment -/

/-- Whether a token has delimiters, or no `${`. -/
def Token.IsPlain (token : Token) : Prop := token.kind = .unquoted → ¬['$', '{'] <:+: token.text.toList

theorem Token.isLiteral_wordType {source : String} {token : Token} (hToken : token ∈ tokenize source)
    (hInner : Invocation.Inner token.kind) : token.wordType.isLiteral = true ↔ token.IsPlain := by
  have hLexeme (hKind : token.kind ≠ .endOfText) := mem_lexemes_of_mem_tokenize hToken hKind
  unfold wordType IsPlain
  cases hKind : token.kind with
  | unquoted => simp only [WordType.isLiteral_ofUnquoted, forall_const]
  | quoted | bracket => simp [WordType.isLiteral]
  | leftParen =>
    rw [Lexer.text_of_leftParen (hLexeme (by simp [hKind])) hKind]
    decide +kernel
  | rightParen =>
    rw [Lexer.text_of_rightParen (hLexeme (by simp [hKind])) hKind]
    decide +kernel
  | lineComment | bracketComment | invalid | endOfText => simp [hKind, Invocation.Inner, Kind.isArgument] at hInner

theorem Token.literal?_word (lines : LineIndex) (token : Token) :
    (token.word lines).literal? = if token.wordType.isLiteral then some token.contents else none := by
  rw [word_eq]
  rfl

namespace Assignment

variable {command name : String} (symbols : SymbolTable)

theorem record_words (hName : sameCommand name command) (lines : LineIndex) (key value : Token) :
    record command name [key.word lines, value.word lines] symbols =
      if key.wordType.isLiteral ∧ value.wordType.isLiteral then
        (recorded key.contents (symbols.lookup? key.contents), symbols.define key.contents value.contents)
      else (nonLiteral, symbols) := by
  simp only [record, hName, if_true, Token.literal?_word, SymbolTable.exchange_eq]
  cases key.wordType.isLiteral <;> cases value.wordType.isLiteral <;> rfl

end Assignment

/-- The two arguments of a call in a tree are the words of two tokens that can be arguments. -/
theorem Derivation.IsOf.exists_arguments {script : Derivation .body} {source : String} (h : script.IsOf source)
    {path : Path} {place : Location} {name : String} {first second : Node}
    (hAt : (script.tree source).At path (.call place name [first, second])) :
    ∃ key value : Token, (key ∈ tokenize source ∧ Invocation.Inner key.kind ∧ first = key.word (.ofSource source)) ∧
      (value ∈ tokenize source ∧ Invocation.Inner value.kind ∧ second = value.word (.ofSource source)) := by
  obtain ⟨call, hCall, hEq⟩ := h.exists_call hAt
  rw [Invocation.call, Node.call.injEq] at hEq
  obtain ⟨-, -, hWords⟩ := hEq
  obtain ⟨key, others, hArguments, hFirst, hOthers⟩ := List.map_eq_cons_iff.mp hWords.symm
  obtain ⟨value, rest, rfl, hSecond, -⟩ := List.map_eq_cons_iff.mp hOthers
  have hArgument {token : Token} (hToken : token ∈ call.arguments) :
      token ∈ tokenize source ∧ Invocation.Inner token.kind :=
    ⟨h.mem_tokenize_of_argument hCall hToken, (h.wellFormed call hCall).arguments.inner token hToken⟩
  obtain ⟨hKey, hKeyInner⟩ := hArgument (show key ∈ call.arguments by simp [hArguments])
  obtain ⟨hValue, hValueInner⟩ := hArgument (show value ∈ call.arguments by simp [hArguments])
  exact ⟨key, value, ⟨hKey, hKeyInner, hFirst.symm⟩, hValue, hValueInner, hSecond.symm⟩

/-- The type of a word agrees with the scan for references. A call of the assignment command that has two arguments
assigns exactly if neither was written with a `${` and without delimiters; otherwise nothing changes. -/
theorem words_agree_with_scan :
    (∀ text : String,
      (WordType.ofUnquoted text = .reference ↔
        ∃ reference, Reference.scan text = .found reference ∧ reference.IsWhole text) ∧
      (WordType.ofUnquoted text = .compound ↔
        (∃ reference, Reference.scan text = .found reference ∧ ¬reference.IsWhole text) ∨
          Reference.scan text = .unterminated) ∧
      (WordType.ofUnquoted text = .number ∨ WordType.ofUnquoted text = .unquoted ↔ Reference.scan text = .absent)) ∧
    ∀ (source : String) (root : Node), parse source = .ok root →
      ∀ (path : Path) (place : Location) (name : String) (first second : Node),
        root.At path (.call place name [first, second]) →
        ∃ key ∈ tokenize source, ∃ value ∈ tokenize source, first.IsWordOf key ∧ second.IsWordOf value ∧
          ∀ (command : String) (symbols : SymbolTable), sameCommand name command →
            ((∃ defined previous, (Assignment.record command name [first, second] symbols).1 =
              .recorded defined previous) ↔ key.IsPlain ∧ value.IsPlain) ∧
            (key.IsPlain ∧ value.IsPlain → Assignment.record command name [first, second] symbols =
              (.recorded key.contents (symbols.lookup? key.contents), symbols.define key.contents value.contents)) ∧
            (¬(key.IsPlain ∧ value.IsPlain) →
              Assignment.record command name [first, second] symbols = (.nonLiteral, symbols)) := by
  constructor
  · intro text
    cases hScan : Reference.scan text with
    | absent => rcases WordType.ofUnquoted_of_absent hScan with hType | hType <;> simp [hType]
    | unterminated => simp [WordType.ofUnquoted_of_unterminated hScan]
    | found found =>
      rw [WordType.ofUnquoted_of_found hScan]
      split <;> simp [*]
  · intro source root hParse path place name first second hAt
    obtain ⟨script, hIsOf, rfl⟩ := exists_script_of_parse hParse
    obtain ⟨key, value, ⟨hKey, hKeyInner, rfl⟩, hValue, hValueInner, rfl⟩ := hIsOf.exists_arguments hAt
    refine ⟨key, hKey, value, hValue, Token.isWordOf hKey _, Token.isWordOf hValue _, fun command symbols hName => ?_⟩
    have hLiteral := and_congr (Token.isLiteral_wordType hKey hKeyInner) (Token.isLiteral_wordType hValue hValueInner)
    rw [Assignment.record_words symbols hName, ← hLiteral]
    by_cases hBoth : key.wordType.isLiteral = true ∧ value.wordType.isLiteral = true
    · simp [hBoth]
    · simp [hBoth]

/-- A name may have a `${` in it, and so may arguments with delimiters. -/
theorem words_agree_with_scan_of_delimited :
    WordType.ofUnquoted "$\x7bA$\x7bB\x7d" = .reference ∧
    ∃ root place first second, parse "SET(\"$\x7bA\x7d\" [[x$\x7b]])" = .ok root ∧
      root.At [⟨.statements, 0⟩] (.call place "SET" [first, second]) ∧
      ∀ symbols, ∃ defined previous,
        (Assignment.record "set" "SET" [first, second] symbols).1 = .recorded defined previous := by
  obtain ⟨hTypes, hCalls⟩ := words_agree_with_scan
  refine ⟨(hTypes _).1.mpr ⟨⟨"", "A$\x7bB", ""⟩, by decide, by decide⟩, ?_⟩
  let place : Location := ⟨⟨0, 19⟩, ⟨1, 1⟩⟩
  let first := Node.word ⟨⟨4, 10⟩, ⟨1, 5⟩⟩ .quoted "$\x7bA\x7d"
  let second := Node.word ⟨⟨11, 18⟩, ⟨1, 12⟩⟩ .bracket "x$\x7b"
  have hParse : parse "SET(\"$\x7bA\x7d\" [[x$\x7b]])" =
      .ok (.toplevel place [.call place "SET" [first, second]]) := by with_unfolding_all rfl
  have hAt : (Node.toplevel place [.call place "SET" [first, second]]).At [⟨.statements, 0⟩]
      (.call place "SET" [first, second]) := .step List.mem_cons_self (.here _)
  refine ⟨_, place, first, second, hParse, hAt, fun symbols => ?_⟩
  obtain ⟨key, -, value, -, ⟨_, type, _, hFirst, -, hKey⟩, ⟨_, type', _, hSecond, -, hValue⟩, hRecord⟩ :=
    hCalls _ _ hParse _ _ _ _ _ hAt
  obtain ⟨-, rfl, -⟩ := Node.word.inj hFirst
  obtain ⟨-, rfl, -⟩ := Node.word.inj hSecond
  have hKeyPlain : key.IsPlain := by simp [Token.IsPlain, hKey.quoted.mp rfl]
  have hValuePlain : value.IsPlain := by simp [Token.IsPlain, hValue.bracket.mp rfl]
  exact (hRecord "set" symbols (by decide +kernel)).1.mpr ⟨hKeyPlain, hValuePlain⟩

end Listfile
