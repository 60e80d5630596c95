import Listfile.Proofs.Json.Passing
import Listfile.Proofs.Json.Sorting
/-! # Reading back values

What is written for a value, in either layout and at any depth, is taken as that value, except that doubles are taken as
what is read for them, and objects as sorted ones. No number may be infinite or a NaN, and integers must fit.
-/
namespace Listfile.Json
set_option autoImplicit false

variable {α : Type} (layout : Layout) (depth : Nat)

def written (value : Json) : List Char := value.write layout depth []

theorem write_eq (value : Json) (rest : List Char) :
    value.write layout depth rest = value.written layout depth ++ rest :=
  write_append layout depth value [] rest

theorem blank_newline : Blank (layout.newline depth) := by
  cases layout with
  | compact => exact blank_nil
  | indented =>
    intro c hc
    rcases List.mem_cons.mp hc with rfl | hc
    · rfl
    · rw [(List.mem_replicate.mp hc).2]
      rfl

def Layout.gap : Layout → List Char
  | compact => []
  | indented => [' ']

theorem colon_eq : layout.colon = ':' :: layout.gap := by cases layout <;> rfl

theorem blank_gap : Blank layout.gap := by
  cases layout with
  | compact => exact blank_nil
  | indented => intro c hc; rw [List.mem_singleton.mp hc]; rfl

/-- A string after its opening quote. -/
def quotedRest (s : String) : List Char := escapeAll ['"'] s.toList

theorem quote_eq (s : String) (rest : List Char) : quote s rest = '"' :: (quotedRest s ++ rest) := by
  simp [quote, quotedRest, escapeAll_eq]

theorem readString_quotedRest (s : String) (more : List Char) :
    readString (quotedRest s ++ more) = .ok (s.toList, more) := by
  have hRead := readString_escapeAll s.toList more
  rw [escapeAll_eq] at hRead
  rw [quotedRest, escapeAll_eq, List.append_assoc]
  exact hRead

/-! ## Lists and objects -/

theorem elements_written {elements : List Json} (h : ∀ element ∈ elements, Announces (element.written layout depth))
    {blanks : List Char} (hBlanks : Blank blanks) :
    Elements false (elements.map (written layout depth)) (writeElements layout depth elements blanks) := by
  induction elements with
  | nil => exact .nil hBlanks
  | cons element rest ih =>
    obtain ⟨hFirst, hRest⟩ := List.forall_mem_cons.mp h
    rw [writeElements, write_eq]
    exact @Elements.cons false _ _ _ _ _ blank_nil (blank_newline layout depth) hFirst (ih hRest)

/-- The members of an object, as `Members` has them. -/
def writtenMembers (members : List (String × Json)) : List (String × List Char) :=
  members.map fun member => (member.1, member.2.written layout depth)

theorem members_written (members : List (String × Json)) {blanks : List Char} (hBlanks : Blank blanks) :
    Members false (writtenMembers layout depth members) (writeMembers layout depth members blanks) := by
  induction members with
  | nil => exact .nil hBlanks
  | cons member rest ih =>
    obtain ⟨name, value⟩ := member
    rw [writeMembers, write_eq, quote_eq, colon_eq]
    exact @Members.cons false _ _ _ _ _ _ _ _ _ blank_nil (blank_newline layout depth) blank_nil (blank_gap layout)
      (readString_quotedRest name) ih

theorem written_array {elements : List Json}
    (h : ∀ element ∈ elements, Announces (element.written layout (depth + 1))) :
    ∃ text, written layout depth (.array elements) = '[' :: (text ++ [']']) ∧
      Elements true (elements.map (written layout (depth + 1))) text := by
  cases elements with
  | nil => exact ⟨[], rfl, .nil blank_nil⟩
  | cons element rest =>
    obtain ⟨hFirst, hRest⟩ := List.forall_mem_cons.mp h
    have hElements := elements_written layout (depth + 1) hRest (blank_newline layout depth)
    refine ⟨_, ?_, @Elements.cons true _ _ _ _ _ blank_nil (blank_newline layout (depth + 1)) hFirst hElements⟩
    rw [written, write, writeElements_append, write_eq]
    simp [comma]

theorem written_object (members : List (String × Json)) :
    IsObject (writtenMembers layout (depth + 1) members) (written layout depth (.object members)) := by
  cases members with
  | nil => exact ⟨[], rfl, .nil blank_nil⟩
  | cons member rest =>
    obtain ⟨name, value⟩ := member
    have hMembers := members_written layout (depth + 1) rest (blank_newline layout depth)
    refine ⟨_, ?_, @Members.cons true _ _ _ _ _ _ _ _ _ blank_nil (blank_newline layout (depth + 1)) blank_nil
      (blank_gap layout) (readString_quotedRest name) hMembers⟩
    rw [written, write, writeMembers_append, write_eq, quote_eq, colon_eq]
    simp [comma]

/-! ## Single values -/

theorem written_ofNat (n : Nat) : written layout depth (.ofNat n) = Nat.toDigits 10 n := by
  rw [written, ofNat, ofInt, write, List.append_nil]
  exact String.toList_ofList

theorem announces_written {value : Json} (h : Writable value) : Announces (value.written layout depth) := by
  cases value with
  | null => exact ⟨'n', _, rfl, by decide, by decide⟩
  | bool value => cases value <;> exact ⟨_, _, rfl, by decide, by decide⟩
  | string value => exact ⟨'"', _, rfl, by decide, by decide⟩
  | array elements => cases elements <;> exact ⟨'[', _, rfl, by decide, by decide⟩
  | object members => cases members <;> exact ⟨'{', _, rfl, by decide, by decide⟩
  | number value =>
    obtain ⟨negative, text, hText, hRead⟩ := readNumber_text h
    rw [written, write, List.append_nil, hText]
    cases negative with
    | true => exact ⟨'-', text, rfl, by decide, by decide⟩
    | false =>
      obtain ⟨c, others, hDigits, hDigit⟩ := head_of_readNumber false (hRead [] delimited_nil)
      rw [List.append_nil] at hDigits
      exact ⟨c, others, hDigits, isBlank_of_isDigit hDigit, ne_of_isDigit hDigit (by decide)⟩

/-! ## Spellings -/

/-- A string with its quotes, where characters may be escaped in any way that is read. -/
def Quoted (s : String) (text : List Char) : Prop :=
  ∃ body, text = '"' :: body ∧ ∀ more, readString (body ++ more) = .ok (s.toList, more)

mutual

/-- Whether a text is that of a value, with blanks anywhere and strings escaped in any way. -/
def Spelled : Json → List Char → Prop
  | null, text => text = ['n', 'u', 'l', 'l']
  | bool true, text => text = ['t', 'r', 'u', 'e']
  | bool false, text => text = ['f', 'a', 'l', 's', 'e']
  | number value, text => text = value.text.toList
  | string value, text => Quoted value text
  | array elements, text =>
    ∃ texts inner, text = '[' :: (inner ++ [']']) ∧ Elements true texts inner ∧ SpelledElements elements texts
  | object members, text => ∃ named, IsObject named text ∧ SpelledMembers members named

def SpelledElements : List Json → List (List Char) → Prop
  | [], texts => texts = []
  | value :: rest, texts => ∃ text others, texts = text :: others ∧ Spelled value text ∧ SpelledElements rest others

def SpelledMembers : List (String × Json) → List (String × List Char) → Prop
  | [], named => named = []
  | (name, value) :: rest, named =>
    ∃ text others, named = (name, text) :: others ∧ Spelled value text ∧ SpelledMembers rest others

end

theorem quoted_written (s : String) : Quoted s (written layout depth (.string s)) := by
  refine ⟨quotedRest s, ?_, readString_quotedRest s⟩
  rw [written, write, quote_eq, List.append_nil]

mutual

/-- What is written for a value is a spelling of it. -/
theorem spelled_written (value : Json) (h : value.Everywhere Writable) (depth : Nat) :
    value.Spelled (value.written layout depth) := by
  match value with
  | .null => rfl
  | .bool true => rfl
  | .bool false => rfl
  | .number value =>
    rw [Spelled, written, write, List.append_nil]
  | .string value => exact quoted_written layout depth value
  | .array elements =>
    obtain ⟨inner, hText, hElements⟩ := written_array layout depth fun element hElement =>
      announces_written layout (depth + 1) (h.element hElement).self
    rw [Spelled]
    exact ⟨_, inner, hText, hElements,
      spelledElements_written elements (fun element hElement => h.element hElement) (depth + 1)⟩
  | .object members =>
    rw [Spelled]
    exact ⟨_, written_object layout depth members,
      spelledMembers_written members (fun member hMember => h.member hMember) (depth + 1)⟩

theorem spelledElements_written (elements : List Json) (h : ∀ element ∈ elements, element.Everywhere Writable)
    (depth : Nat) : SpelledElements elements (elements.map (written layout depth)) := by
  match elements with
  | [] => rfl
  | element :: rest =>
    obtain ⟨hFirst, hRest⟩ := List.forall_mem_cons.mp h
    rw [SpelledElements]
    exact ⟨_, _, rfl, spelled_written element hFirst depth, spelledElements_written rest hRest depth⟩

theorem spelledMembers_written (members : List (String × Json)) (h : ∀ member ∈ members, member.2.Everywhere Writable)
    (depth : Nat) : SpelledMembers members (writtenMembers layout depth members) := by
  match members with
  | [] => rfl
  | (name, value) :: rest =>
    obtain ⟨hFirst, hRest⟩ := List.forall_mem_cons.mp h
    rw [SpelledMembers]
    exact ⟨_, _, rfl, spelled_written value hFirst depth, spelledMembers_written rest hRest depth⟩

end

theorem Quoted.isValue {s : String} {text : List Char} (h : Quoted s text) : IsValue text := by
  obtain ⟨body, rfl, hRead⟩ := h
  exact .string (stringBody_of_reads hRead)

theorem isValue_number {number : Number} (h : number.Writable) : IsValue number.text.toList := by
  obtain ⟨negative, text, hText, hRead⟩ := readNumber_text h
  obtain ⟨front, hFront, hMagnitude⟩ := of_skipNumber (skipNumber_of_read (hRead [] delimited_nil))
  rw [List.append_nil, List.append_nil] at hFront
  rw [hText, hFront]
  cases negative with
  | true => exact .negative hMagnitude
  | false => exact .number hMagnitude

mutual

theorem isValue_of_spelled (value : Json) (h : value.Everywhere Writable) {text : List Char}
    (hText : value.Spelled text) : IsValue text := by
  match value with
  | .null =>
    rw [Spelled] at hText
    rw [hText]
    exact .null
  | .bool true =>
    rw [Spelled] at hText
    rw [hText]
    exact .yes
  | .bool false =>
    rw [Spelled] at hText
    rw [hText]
    exact .no
  | .number value =>
    rw [Spelled] at hText
    rw [hText]
    exact isValue_number h.self
  | .string value =>
    rw [Spelled] at hText
    exact hText.isValue
  | .array elements =>
    rw [Spelled] at hText
    obtain ⟨texts, inner, rfl, hElements, hTexts⟩ := hText
    exact .array hElements (isValue_of_spelledElements elements (fun element hElement => h.element hElement) hTexts)
  | .object members =>
    rw [Spelled] at hText
    obtain ⟨named, hObject, hMembers⟩ := hText
    exact hObject.isValue (isValue_of_spelledMembers members (fun member hMember => h.member hMember) hMembers)

theorem isValue_of_spelledElements (elements : List Json) (h : ∀ element ∈ elements, element.Everywhere Writable)
    {texts : List (List Char)} (hTexts : SpelledElements elements texts) : ∀ text ∈ texts, IsValue text := by
  match elements with
  | [] =>
    rw [SpelledElements] at hTexts
    rw [hTexts]
    exact List.forall_mem_nil _
  | element :: rest =>
    obtain ⟨hFirst, hRest⟩ := List.forall_mem_cons.mp h
    rw [SpelledElements] at hTexts
    obtain ⟨text, others, rfl, hText, hOthers⟩ := hTexts
    exact List.forall_mem_cons.mpr
      ⟨isValue_of_spelled element hFirst hText, isValue_of_spelledElements rest hRest hOthers⟩

theorem isValue_of_spelledMembers (members : List (String × Json))
    (h : ∀ member ∈ members, member.2.Everywhere Writable) {named : List (String × List Char)}
    (hNamed : SpelledMembers members named) : ∀ member ∈ named, IsValue member.2 := by
  match members with
  | [] =>
    rw [SpelledMembers] at hNamed
    rw [hNamed]
    exact List.forall_mem_nil _
  | (name, value) :: rest =>
    obtain ⟨hFirst, hRest⟩ := List.forall_mem_cons.mp h
    rw [SpelledMembers] at hNamed
    obtain ⟨text, others, rfl, hText, hOthers⟩ := hNamed
    exact List.forall_mem_cons.mpr ⟨isValue_of_spelled value hFirst hText, isValue_of_spelledMembers rest hRest hOthers⟩

end

namespace Reader

section single

variable (fuel : List Char) (c : Char) {text : List Char}

theorem takes_null : (valueWithin (c :: fuel)).Takes ['n', 'u', 'l', 'l'] .null := by
  intro room blanks rest hBlanks _ _
  refine (bind_ok (peek_ok hBlanks (by decide))).trans ?_
  simp only [if_true]
  refine (bind_ok rfl).trans ?_
  exact (bind_ok (literal_ok ['u', 'l', 'l'])).trans rfl

theorem takes_true : (valueWithin (c :: fuel)).Takes ['t', 'r', 'u', 'e'] (.bool true) := by
  intro room blanks rest hBlanks _ _
  refine (bind_ok (peek_ok hBlanks (by decide))).trans ?_
  simp only [Char.reduceEq, if_false, if_true]
  refine (bind_ok rfl).trans ?_
  exact (bind_ok (literal_ok ['r', 'u', 'e'])).trans rfl

theorem takes_false : (valueWithin (c :: fuel)).Takes ['f', 'a', 'l', 's', 'e'] (.bool false) := by
  intro room blanks rest hBlanks _ _
  refine (bind_ok (peek_ok hBlanks (by decide))).trans ?_
  simp only [Char.reduceEq, if_false, if_true]
  refine (bind_ok rfl).trans ?_
  exact (bind_ok (literal_ok ['a', 'l', 's', 'e'])).trans rfl

theorem takes_string_value {value : String} (h : Quoted value text) :
    (valueWithin (c :: fuel)).Takes text (.string value) := by
  obtain ⟨body, rfl, hRead⟩ := h
  intro room blanks rest hBlanks _ _
  refine (bind_ok (peek_ok hBlanks (by decide))).trans ?_
  simp only [Char.reduceEq, Bool.false_eq_true, if_false, if_true, show isDigit '"' = false from rfl]
  refine (bind_ok rfl).trans ?_
  exact (bind_ok (stringBody_ok hRead)).trans rfl

theorem takes_number {value : Number} (h : value.Writable) :
    (valueWithin (c :: fuel)).Takes value.text.toList (.number value.reread) := by
  obtain ⟨negative, text, hText, hRead⟩ := readNumber_text h
  intro room blanks rest hBlanks _ hRest
  have hRead := hRead rest hRest
  rw [hText]
  cases negative with
  | true =>
    rw [if_pos rfl, List.cons_append]
    refine (bind_ok (peek_ok hBlanks (by decide))).trans ?_
    simp only [Char.reduceEq, if_false, if_true]
    refine (bind_ok rfl).trans ?_
    exact (bind_ok hRead).trans rfl
  | false =>
    obtain ⟨first, others, hFirst, hDigit⟩ := head_of_readNumber false hRead
    rw [hFirst] at hRead
    rw [if_neg Bool.false_ne_true, hFirst]
    refine (bind_ok (peek_ok hBlanks (isBlank_of_isDigit hDigit))).trans ?_
    have hNe (other : Char) (hOther : isDigit other = false) : (first = other) = False :=
      eq_false (ne_of_isDigit hDigit hOther)
    simp only [hNe 'n' rfl, hNe 't' rfl, hNe 'f' rfl, hNe '-' rfl, hDigit, if_false, if_true]
    exact (bind_ok hRead).trans rfl

end single

/-! ## All values -/

/-- What is read for a member of an object is inserted into those before it. -/
theorem chain_insertMember {value : Reader Json} {members : List (String × Json)} {name : String} {text : List Char}
    {x : Json} (hValue : value.Takes text x) (blanks : List Char) (hBlanks : Blank blanks) :
    Takes (do colon; return insertMember name (← value) members) (':' :: (blanks ++ text))
      (insertMember name x members) := takes_colon hValue hBlanks fun _ _ => rfl

mutual

theorem takes_valueWithin (value : Json) (h : value.Everywhere Writable) {text : List Char} (hText : value.Spelled text)
    (fuel : List Char) (hFuel : text.length < fuel.length) : (valueWithin fuel).Takes text value.reread.sorted := by
  cases fuel with
  | nil => cases hFuel
  | cons c fuel =>
  match value with
  | .null =>
    rw [Spelled] at hText
    rw [hText]
    exact takes_null fuel c
  | .bool true =>
    rw [Spelled] at hText
    rw [hText]
    exact takes_true fuel c
  | .bool false =>
    rw [Spelled] at hText
    rw [hText]
    exact takes_false fuel c
  | .number value =>
    rw [Spelled] at hText
    rw [hText]
    exact takes_number fuel c h.self
  | .string value =>
    rw [Spelled] at hText
    exact takes_string_value fuel c hText
  | .array elements =>
    rw [Spelled] at hText
    obtain ⟨texts, inner, rfl, hElements, hTexts⟩ := hText
    simp only [List.length_cons, List.length_append] at hFuel
    -- An element is written in fewer characters than the array, so the rest of the fuel is long enough.
    have hItems := forall₂_takes elements (fun element hElement => h.element hElement) hTexts fuel
      fun text hText => by
        have := hElements.length_le_of_mem hText
        omega
    intro room blanks rest hBlanks hRoom _
    simp only [List.length_cons, List.length_append] at hRoom
    simp only [List.cons_append, List.append_assoc, List.nil_append]
    refine (bind_ok (peek_ok hBlanks (by decide))).trans ?_
    simp only [Char.reduceEq, if_false, if_true, show isDigit '[' = false from rfl, Bool.false_eq_true]
    refine (bind_ok (nested_many_ok hElements hItems (by omega))).trans ?_
    exact (bind_ok (endList_ok blank_nil)).trans rfl
  | .object members =>
    rw [Spelled] at hText
    obtain ⟨named, hObject, hNamed⟩ := hText
    have hChain := chain_takes members [] (fun member hMember => h.member hMember) hNamed fuel
      fun member hMember => by
        have := hObject.length_lt hMember
        rw [List.length_cons] at hFuel
        omega
    obtain ⟨inner, rfl, hMembers⟩ := hObject
    intro room blanks rest hBlanks hRoom _
    simp only [List.length_cons, List.length_append] at hRoom
    simp only [List.cons_append, List.append_assoc, List.nil_append]
    refine (bind_ok (peek_ok hBlanks (by decide))).trans ?_
    simp only [Char.reduceEq, if_false, if_true, show isDigit '{' = false from rfl, Bool.false_eq_true]
    refine (bind_ok (nested_fold_ok hMembers hChain (by omega))).trans ?_
    exact (bind_ok (endObject_ok blank_nil)).trans rfl

theorem forall₂_takes (elements : List Json) (h : ∀ element ∈ elements, element.Everywhere Writable)
    {texts : List (List Char)} (hTexts : SpelledElements elements texts) (fuel : List Char)
    (hFuel : ∀ text ∈ texts, text.length < fuel.length) :
    List.Forall₂ (valueWithin fuel).Takes texts (sortedElements (rereadElements elements)) := by
  match elements with
  | [] =>
    rw [SpelledElements] at hTexts
    rw [hTexts]
    exact .nil
  | element :: rest =>
    rw [SpelledElements] at hTexts
    obtain ⟨text, others, rfl, hText, hOthers⟩ := hTexts
    obtain ⟨hFirst, hRest⟩ := List.forall_mem_cons.mp h
    obtain ⟨hFuelFirst, hFuelRest⟩ := List.forall_mem_cons.mp hFuel
    exact .cons (takes_valueWithin element hFirst hText fuel hFuelFirst)
      (forall₂_takes rest hRest hOthers fuel hFuelRest)

theorem chain_takes (members done : List (String × Json)) (h : ∀ member ∈ members, member.2.Everywhere Writable)
    {named : List (String × List Char)} (hNamed : SpelledMembers members named) (fuel : List Char)
    (hFuel : ∀ member ∈ named, member.2.length < fuel.length) :
    Chain (fun members name => do colon; return insertMember name (← valueWithin fuel) members) done
      named (sortedMembers done (rereadMembers members)) := by
  match members with
  | [] =>
    rw [SpelledMembers] at hNamed
    rw [hNamed]
    exact .nil done
  | (name, value) :: rest =>
    rw [SpelledMembers] at hNamed
    obtain ⟨text, others, rfl, hText, hOthers⟩ := hNamed
    obtain ⟨hFirst, hRest⟩ := List.forall_mem_cons.mp h
    obtain ⟨hFuelFirst, hFuelRest⟩ := List.forall_mem_cons.mp hFuel
    have hValue := takes_valueWithin value hFirst hText fuel hFuelFirst
    exact .cons (chain_insertMember hValue) (chain_takes rest _ hRest hOthers fuel hFuelRest)

end

end Reader

end Listfile.Json
