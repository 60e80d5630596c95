import Listfile.Proofs.Grammar.Descent.Steps
import Listfile.Proofs.Grammar.Outlines
/-! # Descents without faults

A descent over the tokens of a script has no fault, and comes to what the outline of the script comes to. Each function
of the descent is compared with what is left to do for an outline at the place of the cursor: a function that returns
has done its part of that, and what is left is to be done at the new place.
-/
namespace Listfile.Descent
set_option autoImplicit false

/-! ## What is left to do for an outline -/

section outlines

variable (lines : LineIndex) (start : Span)

/-- What becomes of an outline if the tokens are read to their end. -/
def resume (outline : Outline) (tokens : List Token) : Except ParseError Node := do
  let (calls, ending) := Invocation.all tokens
  let outline ← calls.foldlM (Outline.step lines) outline
  match ending with
  | .refused error => throw error
  | .complete stop => outline.finish lines (start.merge stop)

/-- The same after an invocation has been read. -/
def resumeAfter (outline : Outline) (call : Invocation) (tokens : List Token) : Except ParseError Node :=
  outline.step lines call >>= fun outline => resume lines start outline tokens

variable {lines start} {outline : Outline} {token : Token} {rest : List Token}

theorem resume_end (h : token.kind = .endOfText) :
    resume lines start outline (token :: rest) = outline.finish lines (start.merge token.span) := by
  rw [resume, Invocation.all, if_pos h]
  rfl

theorem resume_of_error {error : ParseError} (hToken : token.kind ≠ .endOfText)
    (h : Invocation.read token rest = .error error) : resume lines start outline (token :: rest) = .error error := by
  rw [resume, Invocation.all_of_error hToken h]
  rfl

theorem resume_of_read {call : Invocation} {rest' : List Token}
    (h : Invocation.read token rest = .ok (call, rest')) :
    resume lines start outline (token :: rest) = resumeAfter lines start outline call rest' := by
  have hCall := Invocation.wellFormed_of_read h
  have hAll := Invocation.all_append (List.forall_mem_singleton.mpr hCall) rest'
  rw [List.flatMap_singleton, ← Invocation.eq_of_read h] at hAll
  rw [resume, resumeAfter, hAll]
  simp only [List.singleton_append, List.foldlM_cons]
  cases outline.step lines call <;> rfl

end outlines

/-! ## Statements -/

theorem commandName_call (lines : LineIndex) (call : Invocation) : commandName (call.call lines) = call.name.text := rfl

theorem terminator?_eq_some {lines : LineIndex} {call : Invocation} {terminator : Terminator} :
    terminator? (call.call lines) = some terminator ↔ call.Names (.terminator terminator) := by
  rw [Invocation.Names, ← Keyword.ofName?_eq_some, terminator?, commandName_call]
  split
  · rename_i hName
    rw [hName]
    simp
  · rename_i hName
    simpa using hName terminator

theorem terminator?_eq_none {lines : LineIndex} {call : Invocation} :
    terminator? (call.call lines) = none ↔ ∀ terminator, ¬call.Names (.terminator terminator) := by
  rw [Option.eq_none_iff_forall_ne_some]
  exact forall_congr' fun terminator => not_congr terminator?_eq_some

/-- The terminators that close a block, or start its next arm. The last of them closes it. -/
def closers : OpenForm → List Terminator
  | .block form => [.endBlock form]
  | .ifArm | .elseifArm .. => armClosers
  | .elseArm .. => [.endConditional]

theorem element_closers (opener : Invocation) (form : OpenForm) (reversed : List Node) :
    minus (closers form).length 1 = .ok ((closers form).length - 1) ∧
      element (closers form) ((closers form).length - 1) = .ok (OpenBlock.terminator ⟨opener, form, reversed⟩) := by
  cases form <;> exact ⟨rfl, rfl⟩

theorem close?_eq_none {lines : LineIndex} {opener closing : Invocation} {form : OpenForm} {reversed : List Node}
    {terminator : Terminator} (h : terminator ∉ closers form) :
    OpenBlock.close? lines ⟨opener, form, reversed⟩ terminator closing = none := by
  cases form <;> cases terminator <;> simp [closers, armClosers, OpenBlock.close?] at h ⊢
  exact fun hForm => h hForm.symm

section statements

variable {source : String} {cursor : Nat} {token : Token} {rest : List Token} {lines : LineIndex}

theorem clause_eq (form : ClauseForm) (header : Node) (statements : List Node) :
    clause (.ofSource source) form header statements cursor =
      .ok (.ofArm (.ofSource source) form header statements.reverse, cursor) := by
  rw [clause, bind_of_ok (attempt_ok (locate_eq _ _)), ← List.head?_reverse]
  unfold Node.ofArm
  rw [List.reverse_reverse]
  cases statements.reverse <;> rfl

/-- What is known of the statement that has been made of an invocation and of the tokens after it. -/
def Done (source : String) (call : Invocation) (tokens : List Token) (before : Nat) (node : Node) (cursor : Nat) :
    Prop :=
  before ≤ cursor ∧ ∃ rest, Stands source cursor rest ∧ ∀ start outline,
    resumeAfter (.ofSource source) start outline call tokens =
      resume (.ofSource source) start (outline.push node) rest

def Failed (source : String) (call : Invocation) (tokens : List Token) (error : ParseError) : Prop :=
  ∀ start outline, resumeAfter (.ofSource source) start outline call tokens = .error error

/-- Whether a function makes statements of the invocations that are, or start, one. -/
def Statement (source : String) (levels : Nat) (statement : Node → Step Node) : Prop :=
  ∀ (call : Invocation) cursor rest, (∀ terminator, ¬call.Names (.terminator terminator)) →
    Stands source cursor rest → (tokenize source).length - cursor ≤ levels →
    Yields (statement (call.call (.ofSource source))) cursor (Done source call rest cursor) (Failed source call rest)

/-- What has become of an open block, when the statements of a body have been read and then an invocation that closes it
or starts its next arm. -/
structure Closed (source : String) (opener : Invocation) (form : OpenForm) (tokens : List Token)
    (statements : List Node) (closing : Invocation) (terminator : Terminator) (rest : List Token) : Prop where
  names : closing.Names (.terminator terminator)
  mem : terminator ∈ closers form
  resume_eq : ∀ start reversed outer,
    resume (.ofSource source) start ⟨reversed, ⟨opener, form, []⟩ :: outer⟩ tokens =
      (Outline.close (.ofSource source) ⟨reversed, ⟨opener, form, statements.reverse⟩ :: outer⟩ terminator closing >>=
        fun outline => resume (.ofSource source) start outline rest)

/-- Whether the tokens of an open block are refused, whatever is around it. -/
def Refused (source : String) (opener : Invocation) (form : OpenForm) (tokens : List Token) (error : ParseError) :
    Prop :=
  ∀ start reversed outer,
    resume (.ofSource source) start ⟨reversed, ⟨opener, form, []⟩ :: outer⟩ tokens = .error error

/-- The statements of a body that have been read up to a cursor, and what is left to do for the open block. -/
def BodyUpTo (source : String) (opener : Invocation) (form : OpenForm) (tokens : List Token) (first : Nat)
    (statements : List Node) (cursor : Nat) : Prop :=
  first ≤ cursor ∧ ∀ start reversed outer,
    resume (.ofSource source) start ⟨reversed, ⟨opener, form, []⟩ :: outer⟩ tokens =
      resume (.ofSource source) start ⟨reversed, ⟨opener, form, statements.reverse⟩ :: outer⟩
        ((tokenize source).drop cursor)

/-- The statements of a body and the invocation after them, when that has been read. -/
def Body (source : String) (opener : Invocation) (form : OpenForm) (tokens : List Token) (first : Nat) :
    List Node × Node → Nat → Prop
  | (statements, node), cursor => first < cursor ∧ ∃ closing terminator rest, Stands source cursor rest ∧
      node = closing.call (.ofSource source) ∧ Closed source opener form tokens statements closing terminator rest

section body

variable {levels : Nat} {statement : Node → Step Node} {opener call : Invocation} {form : OpenForm}
  {tokens : List Token} {first : Nat} {statements : List Node}

/-- An invocation has been read in a body, with a terminator for its name. -/
theorem BodyUpTo.terminated (h : BodyUpTo source opener form tokens first statements cursor) {cursor' : Nat}
    {rest' : List Token} (hStands : Stands source cursor (token :: rest))
    (hRead : Invocation.read token rest = .ok (call, rest')) (hLt : cursor < cursor')
    (hStands' : Stands source cursor' rest') {terminator : Terminator} (hNames : call.Names (.terminator terminator)) :
    if terminator ∈ closers form then
      Body source opener form tokens first (statements, call.call (.ofSource source)) cursor'
    else Refused source opener form tokens (.unmatchedTerminator terminator call.span) := by
  obtain ⟨hLe, hResume⟩ := h
  rw [hStands.1] at hResume
  have hCall (start reversed outer) := (hResume start reversed outer).trans (resume_of_read hRead)
  have hStep (outline : Outline) : outline.step (.ofSource source) call =
      outline.close (.ofSource source) terminator call := outline.step_terminator hNames
  split
  · rename_i hMem
    refine ⟨by omega, call, terminator, rest', hStands', rfl, hNames, hMem, fun start reversed outer => ?_⟩
    rw [hCall, resumeAfter, hStep]
  · rename_i hMem
    intro start reversed outer
    rw [hCall, resumeAfter, hStep, Outline.close]
    simp only [close?_eq_none hMem]
    rfl

theorem BodyUpTo.turned (hStatement : Statement source levels statement)
    (h : BodyUpTo source opener form tokens first statements cursor) (hStands : Stands source cursor (token :: rest))
    (hLevels : (tokenize source).length - first ≤ levels + 1) :
    Yields (bodyTurn (.ofSource source) statement (opener.call (.ofSource source)) (closers form) statements) cursor
      (Turned source (BodyUpTo source opener form tokens first) (Body source opener form tokens first) cursor)
      (Refused source opener form tokens) := by
  have hResume := h.2
  rw [hStands.1] at hResume
  refine yields_of_ok hStands.current ?_
  split
  · rename_i hEnd
    obtain ⟨hLast, hElement⟩ := element_closers opener form statements.reverse
    refine yields_of_ok (attempt_ok hLast) (yields_of_ok (attempt_ok hElement) (yields_refused ?_))
    intro start reversed outer
    rw [hResume, resume_end hEnd]
    rfl
  · rename_i hToken
    refine (yields_invocation hStands hToken).bind (fun error hError start reversed outer => ?_) ?_
    · rw [hResume, resume_of_error hToken hError]
    · rintro node cursor' ⟨call, rest', hRead, rfl, hLt, hStands'⟩
      cases hTerminator : terminator? (call.call (.ofSource source)) with
      | some terminator =>
        have hDone := h.terminated hStands hRead hLt hStands' (terminator?_eq_some.mp hTerminator)
        by_cases hMem : terminator ∈ closers form
        · simp only [if_pos hMem] at hDone ⊢
          exact yields_pure hDone
        · simp only [if_neg hMem] at hDone ⊢
          exact yields_refused hDone
      | none =>
        -- The statement is made of this invocation and of those after it, for which there are levels enough.
        have hCall (start reversed outer) := (hResume start reversed outer).trans (resume_of_read hRead)
        have hPlain := terminator?_eq_none.mp hTerminator
        have hLength := hStands'.lt_length
        have hLe := h.1
        have hMade := hStatement call cursor' rest' hPlain hStands' (by omega)
        refine hMade.bind (fun error hError start reversed outer => ?_) ?_
        · rw [hCall, hError]
        · rintro node cursor'' ⟨hLe', rest'', hStands'', hDone⟩
          refine ⟨by omega, hStands''.lt_length, by omega, fun start reversed outer => ?_⟩
          rw [hCall, hDone, hStands''.1, Outline.push, List.reverse_append]
          rfl

theorem yields_body (hStatement : Statement source levels statement) (opener : Invocation) (form : OpenForm)
    (h : Stands source cursor rest) (hLevels : (tokenize source).length - cursor ≤ levels + 1) :
    Yields (body (.ofSource source) statement (opener.call (.ofSource source)) (closers form)) cursor
      (Body source opener form rest cursor) (Refused source opener form rest) := by
  refine yields_loop (BodyUpTo source opener form rest cursor) (fun statements cursor' hCursor hUpTo => ?_) h.lt_length
    ⟨Nat.le_refl _, fun start reversed outer => ?_⟩
  · obtain ⟨token, rest', hStands⟩ := Stands.exists_of_lt hCursor
    exact hUpTo.turned hStatement hStands hLevels
  · rw [h.1]
    rfl

end body

variable {levels : Nat} {statement : Node → Step Node} {call : Invocation}

theorem yields_block (hStatement : Statement source levels statement) {form : BlockForm}
    (hCall : call.Names (.openBlock form)) (h : Stands source cursor rest)
    (hLevels : (tokenize source).length - cursor ≤ levels + 1) :
    Yields (block (.ofSource source) statement form (call.call (.ofSource source))) cursor
      (Done source call rest cursor) (Failed source call rest) := by
  have hOpen (start) (outline : Outline) : resumeAfter (.ofSource source) start outline call rest =
      resume (.ofSource source) start ⟨outline.reversed, ⟨call, .block form, []⟩ :: outline.blocks⟩ rest := by
    rw [resumeAfter, outline.step_block hCall]
    rfl
  have hBody := yields_body hStatement call (.block form) h hLevels
  refine hBody.bind (fun error hRefused => ?_) ?_
  · intro start outline
    rw [hOpen, hRefused]
  · rintro ⟨statements, footer⟩ cursor' ⟨hLt, closing, terminator, rest', hStands, rfl, hNames, hMem, hResume⟩
    obtain rfl : terminator = .endBlock form := List.mem_singleton.mp hMem
    refine yields_of_ok (attempt_ok (locate_eq _ _)) (yields_pure ⟨Nat.le_of_lt hLt, rest', hStands, ?_⟩)
    intro start outline
    rw [hOpen, hResume, Outline.close]
    simp only [OpenBlock.close?, if_true, List.reverse_reverse]
    rfl

theorem yields_inclusion (hCall : call.Names .inclusion) (h : Stands source cursor rest) :
    Yields (inclusion (.ofSource source) (call.call (.ofSource source))) cursor
      (Done source call rest cursor) (Failed source call rest) := by
  have hStep (start) (outline : Outline) : resumeAfter (.ofSource source) start outline call rest =
      (call.inclusion (.ofSource source)).map outline.push >>= fun outline =>
        resume (.ofSource source) start outline rest := by
    rw [resumeAfter, outline.step_inclusion hCall]
  unfold Invocation.inclusion at hStep
  unfold inclusion
  cases hWords : (call.words (.ofSource source)).filterMap Node.label? with
  | nil =>
    simp only [Invocation.call, hWords]
    refine yields_refused fun start outline => ?_
    rw [hStep, hWords]
    rfl
  | cons filename options =>
    simp only [Invocation.call, hWords]
    refine yields_of_ok (attempt_ok (locate_eq _ _)) (yields_pure ⟨Nat.le_refl _, rest, h, fun start outline => ?_⟩)
    rw [hStep, hWords]
    rfl

/-- Where a conditional stands between two of its arms, or before its end. -/
structure Between (source : String) (call : Invocation) (tokens : List Token) (ifClause : Node) (before : Nat)
    (arms : List Node) (next : Node) (cursor : Nat) (terminator : Terminator) (closing : Invocation) : Prop where
  le : before ≤ cursor
  next_eq : next = closing.call (.ofSource source)
  names : closing.Names (.terminator terminator)
  mem : terminator ∈ armClosers
  resume_eq : ∃ block : OpenBlock, block.arms? (.ofSource source) = some (ifClause, arms.reverse) ∧
    ∀ start reversed outer, resume (.ofSource source) start ⟨reversed, ⟨call, .ifArm, []⟩ :: outer⟩ tokens =
      (Outline.close (.ofSource source) ⟨reversed, block :: outer⟩ terminator closing >>= fun outline =>
        resume (.ofSource source) start outline ((tokenize source).drop cursor))

theorem yields_arms (hStatement : Statement source levels statement) {tokens : List Token} {ifClause : Node}
    {before : Nat} (hLevels : (tokenize source).length - before ≤ levels + 1) {arms : List Node} {next : Node}
    {terminator : Terminator} {closing : Invocation} (hCursor : cursor < (tokenize source).length)
    (h : Between source call tokens ifClause before arms next cursor terminator closing) :
    Yields (loop (.ofSource source) (armTurn (.ofSource source) statement) (arms, next)) cursor
      (fun (arms, next) cursor' => cursor' < (tokenize source).length ∧ ∃ terminator closing,
        Between source call tokens ifClause before arms next cursor' terminator closing ∧ terminator ≠ .elseifBranch)
      (Refused source call .ifArm tokens) := by
  refine yields_loop (fun (arms, next) cursor' => ∃ terminator closing,
    Between source call tokens ifClause before arms next cursor' terminator closing) ?_ hCursor ⟨terminator, closing, h⟩
  rintro ⟨arms, next⟩ cursor' hCursor' ⟨terminator, closing, hLe, rfl, hNames, hMem, block, hArms, hResume⟩
  have hTerminator : terminator? (closing.call (.ofSource source)) = some terminator := terminator?_eq_some.mpr hNames
  show Yields (if terminator? (closing.call (.ofSource source)) = some .elseifBranch then _ else _) cursor' _ _
  rw [hTerminator]
  split
  · rename_i hElseif
    obtain rfl : terminator = .elseifBranch := Option.some.inj hElseif
    obtain ⟨token, rest, hStands⟩ := Stands.exists_of_lt hCursor'
    have hOpen (start reversed outer) : resume (.ofSource source) start ⟨reversed, ⟨call, .ifArm, []⟩ :: outer⟩ tokens =
        resume (.ofSource source) start ⟨reversed, ⟨closing, .elseifArm ifClause arms.reverse, []⟩ :: outer⟩
          (token :: rest) := by
      rw [hResume, hStands.1, Outline.close_nextArm (OpenBlock.close?_elseif hArms closing)]
      rfl
    have hBody := yields_body hStatement closing (.elseifArm ifClause arms.reverse) hStands (by omega)
    refine hBody.bind (fun error hRefused => ?_) ?_
    · intro start reversed outer
      rw [hOpen, hRefused]
    · rintro ⟨statements, following⟩ cursor'' ⟨hLt, closing', terminator', rest', hStands', rfl, hNames', hMem', hClosed⟩
      refine yields_of_ok (clause_eq _ _ _) (yields_pure ⟨hLt, hStands'.lt_length, terminator', closing', ?_⟩)
      refine ⟨by omega, rfl, hNames', hMem', ⟨closing, .elseifArm ifClause arms.reverse, statements.reverse⟩, ?_, ?_⟩
      · rw [List.reverse_append]
        rfl
      · intro start reversed outer
        rw [hOpen, hClosed, hStands'.1]
  · rename_i hElseif
    refine yields_pure ⟨hCursor', terminator, closing, ⟨hLe, rfl, hNames, hMem, block, hArms, hResume⟩, ?_⟩
    exact fun hEq => hElseif (congrArg some hEq)

/-- What is known of the last part of a conditional, and of what the conditional becomes. -/
def Ended (source : String) (call : Invocation) (tokens : List Token) (ifClause : Node) (before : Nat)
    (arms : List Node) (last : Option Node × Node) (cursor : Nat) : Prop :=
  before ≤ cursor ∧ ∃ closing rest, Stands source cursor rest ∧ last.2 = closing.call (.ofSource source) ∧
    ∀ start reversed outer, resume (.ofSource source) start ⟨reversed, ⟨call, .ifArm, []⟩ :: outer⟩ tokens =
      resume (.ofSource source) start (Outline.push ⟨reversed, outer⟩
        (OpenBlock.conditional (.ofSource source) ifClause arms.reverse last.1 closing)) rest

theorem yields_lastArm (hStatement : Statement source levels statement) {tokens : List Token} {ifClause : Node}
    {before : Nat} (hLevels : (tokenize source).length - before ≤ levels + 1) {arms : List Node} {next : Node}
    {terminator : Terminator} {closing : Invocation} (hCursor : cursor < (tokenize source).length)
    (h : Between source call tokens ifClause before arms next cursor terminator closing)
    (hNe : terminator ≠ .elseifBranch) :
    Yields (lastArm (.ofSource source) statement next) cursor (Ended source call tokens ifClause before arms)
      (Refused source call .ifArm tokens) := by
  obtain ⟨hLe, rfl, hNames, hMem, block, hArms, hResume⟩ := h
  obtain ⟨token, rest, hStands⟩ := Stands.exists_of_lt hCursor
  rw [hStands.1] at hResume
  have hTerminator : terminator? (closing.call (.ofSource source)) = some terminator := terminator?_eq_some.mpr hNames
  unfold lastArm
  rw [hTerminator]
  split
  · rename_i hElse
    obtain rfl : terminator = .elseBranch := Option.some.inj hElse
    have hOpen (start reversed outer) : resume (.ofSource source) start ⟨reversed, ⟨call, .ifArm, []⟩ :: outer⟩ tokens =
        resume (.ofSource source) start ⟨reversed, ⟨closing, .elseArm ifClause arms.reverse, []⟩ :: outer⟩
          (token :: rest) := by
      rw [hResume, Outline.close_nextArm (OpenBlock.close?_else hArms closing)]
      rfl
    have hBody := yields_body hStatement closing (.elseArm ifClause arms.reverse) hStands (by omega)
    refine hBody.bind (fun error hRefused => ?_) ?_
    · intro start reversed outer
      rw [hOpen, hRefused]
    · rintro ⟨statements, following⟩ cursor' ⟨hLt, closing', terminator', rest', hStands', rfl, hNames', hMem', hClosed⟩
      obtain rfl : terminator' = .endConditional := List.mem_singleton.mp hMem'
      refine yields_of_ok (clause_eq _ _ _) (yields_pure ⟨by omega, closing', rest', hStands', rfl, ?_⟩)
      intro start reversed outer
      rw [hOpen, hClosed]
      rfl
  · rename_i hElse
    have hEnd : terminator = .endConditional := by
      simp only [armClosers, List.mem_cons, List.not_mem_nil, or_false] at hMem
      rcases hMem with rfl | rfl | rfl
      · exact absurd rfl hNe
      · exact absurd rfl hElse
      · rfl
    subst hEnd
    refine yields_pure ⟨hLe, closing, token :: rest, hStands, rfl, fun start reversed outer => ?_⟩
    rw [hResume, Outline.close_finished (OpenBlock.close?_end hArms closing)]
    rfl

theorem yields_conditional (hStatement : Statement source levels statement) (hCall : call.Names .openConditional)
    (h : Stands source cursor rest) (hLevels : (tokenize source).length - cursor ≤ levels + 1) :
    Yields (conditional (.ofSource source) statement (call.call (.ofSource source))) cursor
      (Done source call rest cursor) (Failed source call rest) := by
  have hOpen (start) (outline : Outline) : resumeAfter (.ofSource source) start outline call rest =
      resume (.ofSource source) start ⟨outline.reversed, ⟨call, .ifArm, []⟩ :: outline.blocks⟩ rest := by
    rw [resumeAfter, outline.step_conditional hCall]
    rfl
  have hFailed (error) (hRefused : Refused source call .ifArm rest error) : Failed source call rest error := by
    intro start outline
    rw [hOpen, hRefused]
  have hBody := yields_body hStatement call .ifArm h hLevels
  refine hBody.bind hFailed ?_
  rintro ⟨statements, next⟩ cursor' ⟨hLt, closing, terminator, rest', hStands, rfl, hNames, hMem, hClosed⟩
  refine yields_of_ok (clause_eq _ _ _) ?_
  have hBetween : Between source call rest (.ofArm (.ofSource source) .ifClause (call.call (.ofSource source))
      statements.reverse) cursor [] (closing.call (.ofSource source)) cursor' terminator closing := by
    refine ⟨Nat.le_of_lt hLt, rfl, hNames, hMem, ⟨call, .ifArm, statements.reverse⟩, rfl, ?_⟩
    intro start reversed outer
    rw [hClosed, hStands.1]
  refine (yields_arms hStatement hLevels hStands.lt_length hBetween).bind hFailed ?_
  rintro ⟨arms, next⟩ cursor'' ⟨hCursor, terminator', closing', hBetween', hNe⟩
  refine (yields_lastArm hStatement hLevels hCursor hBetween' hNe).bind hFailed ?_
  rintro ⟨elseClause, footer⟩ cursor''' ⟨hLe, closing'', rest'', hStands', rfl, hEnded⟩
  refine yields_of_ok (attempt_ok (locate_eq _ _)) (yields_pure ⟨hLe, rest'', hStands', fun start outline => ?_⟩)
  rw [hOpen, hEnded, OpenBlock.conditional, List.reverse_reverse]
  rfl

theorem yields_statement (source : String) (levels : Nat) :
    Statement source levels (Descent.statement (.ofSource source) levels) := by
  induction levels with
  | zero =>
    intro call cursor rest hCall h hLevels
    have hLt := h.lt_length
    omega
  | succ levels ih =>
    intro call cursor rest hCall h hLevels
    have hPlain (hNone : Keyword.ofName? call.name.text = none) :
        Done source call rest cursor (call.call (.ofSource source)) cursor := by
      refine ⟨Nat.le_refl _, rest, h, fun start outline => ?_⟩
      rw [resumeAfter, outline.step_plain (Keyword.ofName?_eq_none.mp hNone)]
      rfl
    unfold Descent.statement
    rw [commandName_call]
    cases hName : Keyword.ofName? call.name.text with
    | none => exact yields_pure (hPlain hName)
    | some keyword =>
      have hNames := Keyword.ofName?_eq_some.mp hName
      cases keyword with
      | openConditional => exact yields_conditional ih hNames h hLevels
      | openBlock form => exact yields_block ih hNames h hLevels
      | inclusion => exact yields_inclusion hNames h
      | terminator terminator => exact absurd hNames (hCall terminator)

/-! ## Whole scripts -/

/-- The statements that have been read up to a cursor, where no block is open. -/
def FileUpTo (source : String) (start : Span) (tokens : List Token) (statements : List Node) (cursor : Nat) : Prop :=
  resume (.ofSource source) start .empty tokens =
    resume (.ofSource source) start ⟨statements.reverse, []⟩ ((tokenize source).drop cursor)

/-- The statements of a script, when all of it has been read. -/
def File (source : String) (start : Span) (tokens : List Token) (statements : List Node) (cursor : Nat) : Prop :=
  ∃ stop, Stands source cursor [stop] ∧ resume (.ofSource source) start .empty tokens =
    .ok (.toplevel ((LineIndex.ofSource source).locate (start.merge stop.span)) statements)

theorem FileUpTo.turned {start : Span} {tokens : List Token} {statements : List Node}
    (h : FileUpTo source start tokens statements cursor) (hStands : Stands source cursor (token :: rest)) :
    Yields (fileTurn (.ofSource source) statements) cursor
      (Turned source (FileUpTo source start tokens) (File source start tokens) cursor)
      (fun error => resume (.ofSource source) start .empty tokens = .error error) := by
  rw [FileUpTo, hStands.1] at h
  refine yields_of_ok hStands.current ?_
  split
  · rename_i hEnd
    obtain rfl := hStands.rest_eq_nil hEnd
    refine yields_pure ⟨token, hStands, ?_⟩
    rw [h, resume_end hEnd, Outline.finish, List.reverse_reverse]
  · rename_i hToken
    refine (yields_invocation hStands hToken).bind (fun error hError => ?_) ?_
    · rw [h, resume_of_error hToken hError]
    · rintro node cursor' ⟨call, rest', hRead, rfl, hLt, hStands'⟩
      have hCall := h.trans (resume_of_read hRead)
      cases hTerminator : terminator? (call.call (.ofSource source)) with
      | some terminator =>
        apply yields_refused
        rw [hCall, resumeAfter, Outline.step_terminator _ (terminator?_eq_some.mp hTerminator)]
        rfl
      | none =>
        have hPlain := terminator?_eq_none.mp hTerminator
        have hStatement := yields_statement source (tokenize source).length call cursor' rest' hPlain hStands'
          (Nat.sub_le _ _)
        refine hStatement.bind (fun error hError => ?_) ?_
        · rw [hCall, hError]
        · rintro node cursor'' ⟨hLe, rest'', hStands'', hDone⟩
          refine ⟨by omega, hStands''.lt_length, ?_⟩
          rw [FileUpTo, hCall, hDone, hStands''.1, List.reverse_append]
          rfl

theorem yields_statements (start : Span) (h : Stands source 0 rest) :
    Yields (loop (.ofSource source) (fileTurn (.ofSource source)) []) 0 (File source start rest)
      (fun error => resume (.ofSource source) start .empty rest = .error error) := by
  refine yields_loop (FileUpTo source start rest) (fun statements cursor' hCursor hUpTo => ?_) h.lt_length ?_
  · obtain ⟨token, rest', hStands⟩ := Stands.exists_of_lt hCursor
    exact hUpTo.turned hStands
  · rw [FileUpTo, h.1]
    rfl

end statements

theorem yields_file (source : String) :
    Yields (file (.ofSource source)) 0
      (fun root cursor => parse source = .ok root ∧ cursor = (tokenize source).length - 1)
      (fun error => parse source = .error error) := by
  have hLength : 0 < (tokenize source).length := by
    rw [tokenize_eq, List.length_append]
    exact Nat.succ_pos _
  obtain ⟨first, rest, hFirst⟩ := Stands.exists_of_lt hLength
  have hParse : parse source = resume (.ofSource source) first.span .empty (first :: rest) := by
    have hTokens : tokenize source = first :: rest := hFirst.1
    rw [parse, hTokens]
    rfl
  refine yields_of_ok hFirst.current ((yields_statements first.span hFirst).bind ?_ ?_)
  · intro error hError
    rw [hParse, hError]
  · rintro statements cursor ⟨stop, hStop, hRoot⟩
    have hCursor : cursor = (tokenize source).length - 1 := by
      have hLast := congrArg List.length hStop.1
      rw [List.length_drop, List.length_singleton] at hLast
      omega
    refine yields_of_ok hStop.current (yields_of_ok (attempt_ok (locate_eq _ _)) (yields_pure ⟨?_, hCursor⟩))
    rw [hParse, hRoot]
    rfl

/-- The tokens of every source end with the end of the text, which is not among those before it, and a descent over them
has no fault: it comes to the tree of the script, with the cursor at the last token, or to the error for which the
script is refused. -/
theorem descent_is_faultless (source : String) :
    (∃ front stop, tokenize source = front ++ [stop] ∧ stop.kind = .endOfText ∧
      ∀ token ∈ front, token.kind ≠ .endOfText) ∧
    run source =
      match parse source with
      | .ok root => .ok (root, (tokenize source).length - 1)
      | .error error => .error (.refused error) := by
  refine ⟨⟨_, _, tokenize_eq source, rfl, kind_ne_of_mem_dropLast⟩, ?_⟩
  have hYields := yields_file source
  unfold Yields at hYields
  unfold run
  split at hYields
  · rename_i hFile
    obtain ⟨hParse, rfl⟩ := hYields
    rw [hFile, hParse]
  · rename_i hFile
    rw [hFile, hYields]
  · exact hYields.elim

/-- Without the end of the text, an open list of arguments would be read for ever. -/
example :
    (match file ⟨"a(", (tokenize "a(").dropLast⟩ 0 with
      | .error (.fault fault) => some fault
      | _ => none) = some .stalled := by
  decide +kernel

end Listfile.Descent
