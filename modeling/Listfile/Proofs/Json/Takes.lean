import Mathlib.Data.List.Forall2
import Listfile.Json.Record
import Listfile.Proofs.Json.Lexical
/-! # What readers take

A reader takes a text as a value if it gives the value and leaves exactly what follows, whatever blanks stand in front
of the text, and whatever follows that could not belong to a number. The room for nesting need not exceed the length of
the text. For lists and objects this follows from what is taken as their items, however blanks are spread among them.
-/
namespace Listfile.Json
set_option autoImplicit false

variable {α β σ : Type}

def Blank (blanks : List Char) : Prop := ∀ c ∈ blanks, isBlank c = true

theorem blank_nil : Blank [] := fun _ h => by cases h

theorem blank_empty : Blank "".toList := by
  rw [String.toList_empty]
  exact blank_nil

theorem delimited_cons {c : Char} (h : isDigit c = false ∧ c ≠ '.' ∧ c ≠ 'e' ∧ c ≠ 'E') (rest : List Char) :
    Delimited (c :: rest) := by
  intro first hFirst
  cases hFirst
  exact h

theorem delimited_nil : Delimited [] := fun _ h => by cases h

theorem delimited_of_isBlank {c : Char} (h : isBlank c = true) (rest : List Char) : Delimited (c :: rest) := by
  refine delimited_cons ?_ rest
  simp only [isBlank, Bool.or_eq_true, decide_eq_true_eq] at h
  rcases h with ((rfl | rfl) | rfl) | rfl <;> decide

theorem Delimited.blanks {blanks rest : List Char} (hBlanks : Blank blanks) (h : Delimited rest) :
    Delimited (blanks ++ rest) := by
  cases blanks with
  | nil => exact h
  | cons c blanks => exact delimited_of_isBlank (hBlanks c List.mem_cons_self) _

namespace Reader

def Takes (reader : Reader α) (text : List Char) (x : α) : Prop :=
  ∀ room blanks rest, Blank blanks → text.length ≤ room → Delimited rest →
    reader room (blanks ++ (text ++ rest)) = .ok (x, rest)

section steps

variable {room : Nat} {text text' rest blanks : List Char} {c : Char}

theorem bind_ok {part : Reader α} {next : α → Reader β} {a : α} (h : part room text = .ok (a, text')) :
    (part >>= next) room text = next a room text' := by
  simp only [bind, ReaderT.bind, StateT.bind, h, Except.bind]

theorem map_ok {part : Reader α} {f : α → β} {a : α} (h : part room text = .ok (a, text')) :
    (f <$> part) room text = .ok (f a, text') := by
  have hBind : (part >>= fun a => pure (f a)) room text = .ok (f a, text') := bind_ok h
  rwa [← bind_pure_comp]

theorem Takes.bind {part : Reader α} {next : α → Reader β} {x : α} {y : β} (h : part.Takes text x)
    (hNext : ∀ room rest, next x room rest = .ok (y, rest)) : (part >>= next).Takes text y :=
  fun room blanks rest hBlanks hRoom hRest => (bind_ok (h room blanks rest hBlanks hRoom hRest)).trans (hNext room rest)

theorem peek_ok (hBlanks : Blank blanks) (h : isBlank c = false) :
    peek room (blanks ++ c :: rest) = .ok (some c, c :: rest) := by
  have hDrop : (blanks ++ c :: rest).dropWhile isBlank = c :: rest := by
    rw [List.dropWhile_append_of_pos hBlanks, List.dropWhile_cons, h, if_neg (by decide)]
  have hPeek : peek room (blanks ++ c :: rest) = .ok (((blanks ++ c :: rest).dropWhile isBlank).head?,
      (blanks ++ c :: rest).dropWhile isBlank) := rfl
  rw [hPeek, hDrop]
  rfl

theorem measure_ok : measure room text = .ok (' ' :: text, text) := rfl

theorem literal_ok (cs : List Char) : literal cs room (cs ++ rest) = .ok ((), rest) := by
  induction cs with
  | nil => rfl
  | cons c cs ih =>
    rw [literal]
    refine (bind_ok rfl).trans ?_
    simp only [List.cons_append]
    refine (bind_ok rfl).trans ?_
    simp only [if_true]
    exact ih

theorem colon_ok (hBlanks : Blank blanks) : colon room (blanks ++ ':' :: rest) = .ok ((), rest) := by
  refine (bind_ok (peek_ok hBlanks (by decide))).trans ?_
  rfl

theorem endObject_ok (hBlanks : Blank blanks) : endObject room (blanks ++ '}' :: rest) = .ok ((), rest) := by
  refine (bind_ok (peek_ok hBlanks (by decide))).trans ?_
  rfl

theorem endList_ok (hBlanks : Blank blanks) : endList room (blanks ++ ']' :: rest) = .ok ((), rest) := by
  refine (bind_ok (peek_ok hBlanks (by decide))).trans ?_
  rfl

end steps

end Reader

/-! ## Items of lists and objects -/

/-- Whether a text starts with a character that announces a value. -/
def Announces (text : List Char) : Prop := ∃ c rest, text = c :: rest ∧ isBlank c = false ∧ c ≠ ']'

def comma (first : Bool) : List Char := if first then [] else [',']

/-- The texts of elements, with commas between them and blanks anywhere, up to a closing bracket. -/
inductive Elements : Bool → List (List Char) → List Char → Prop
  | nil {first : Bool} {blanks : List Char} (hBlanks : Blank blanks) : Elements first [] blanks
  | cons {first : Bool} {before after text rest : List Char} {texts : List (List Char)} (hBefore : Blank before)
    (hAfter : Blank after) (hText : Announces text) (hRest : Elements false texts rest) :
    Elements first (text :: texts) (before ++ (comma first ++ (after ++ (text ++ rest))))

/-- The names of members and the texts of their values, with commas and colons between them and blanks anywhere, up to a
closing brace. A name may be written in any way in which it is read. -/
inductive Members : Bool → List (String × List Char) → List Char → Prop
  | nil {first : Bool} {blanks : List Char} (hBlanks : Blank blanks) : Members first [] blanks
  | cons {first : Bool} {before after beforeColon afterColon quoted text rest : List Char} {name : String}
    {members : List (String × List Char)} (hBefore : Blank before) (hAfter : Blank after)
    (hBeforeColon : Blank beforeColon) (hAfterColon : Blank afterColon)
    (hName : ∀ more, readString (quoted ++ more) = .ok (name.toList, more)) (hRest : Members false members rest) :
    Members first ((name, text) :: members)
      (before ++ (comma first ++ (after ++ '"' :: (quoted ++ (beforeColon ++ ':' :: (afterColon ++ (text ++ rest)))))))

theorem Blank.append {a b : List Char} (ha : Blank a) (hb : Blank b) : Blank (a ++ b) := by
  intro c hc
  rcases List.mem_append.mp hc with hc | hc
  · exact ha c hc
  · exact hb c hc

theorem Elements.delimited {texts : List (List Char)} {text : List Char} (h : Elements false texts text)
    (rest : List Char) : Delimited (text ++ ']' :: rest) := by
  cases h with
  | nil hBlanks => exact .blanks hBlanks (delimited_cons (by decide) _)
  | cons hBefore =>
    rw [List.append_assoc]
    exact .blanks hBefore (delimited_cons (by decide) _)

theorem Members.delimited {members : List (String × List Char)} {text : List Char} (h : Members false members text)
    (rest : List Char) : Delimited (text ++ '}' :: rest) := by
  cases h with
  | nil hBlanks => exact .blanks hBlanks (delimited_cons (by decide) _)
  | cons hBefore =>
    rw [List.append_assoc]
    exact .blanks hBefore (delimited_cons (by decide) _)

theorem Elements.length_le {first : Bool} {texts : List (List Char)} {text : List Char}
    (h : Elements first texts text) : texts.length ≤ text.length := by
  induction h with
  | nil => exact Nat.zero_le _
  | cons hBefore hAfter hText hRest ih =>
    obtain ⟨c, rest, rfl, -⟩ := hText
    simp only [List.length_append, List.length_cons]
    omega

theorem Members.length_le {first : Bool} {members : List (String × List Char)} {text : List Char}
    (h : Members first members text) : members.length ≤ text.length := by
  induction h with
  | nil => exact Nat.zero_le _
  | cons =>
    simp only [List.length_append, List.length_cons]
    omega

theorem Elements.length_le_of_mem {first : Bool} {texts : List (List Char)} {text item : List Char}
    (h : Elements first texts text) (hItem : item ∈ texts) : item.length ≤ text.length := by
  induction h with
  | nil => cases hItem
  | cons hBefore hAfter hText hRest ih =>
    simp only [List.length_append]
    rcases List.mem_cons.mp hItem with rfl | hItem
    · omega
    · have := ih hItem
      omega

theorem Members.length_le_of_mem {first : Bool} {members : List (String × List Char)} {text : List Char}
    (h : Members first members text) {member : String × List Char} (hMember : member ∈ members) :
    member.2.length ≤ text.length := by
  induction h with
  | nil => cases hMember
  | @cons _ _ _ _ _ _ text =>
    rename_i ih
    simp only [List.length_append, List.length_cons]
    rcases List.mem_cons.mp hMember with rfl | hMember
    · show text.length ≤ _
      omega
    · have := ih hMember
      omega

namespace Reader

section items

variable {room : Nat} {before after rest : List Char}

theorem hasElement_nil {first : Bool} (hBefore : Blank before) :
    hasElement first room (before ++ ']' :: rest) = .ok (false, ']' :: rest) := by
  refine (bind_ok (peek_ok hBefore (by decide))).trans ?_
  rfl

theorem hasElement_cons {first : Bool} (hBefore : Blank before) (hAfter : Blank after) {c : Char}
    (hBlank : isBlank c = false) (hClosing : c ≠ ']') :
    hasElement first room (before ++ (comma first ++ (after ++ c :: rest))) = .ok (true, c :: rest) := by
  cases first with
  | true =>
    rw [comma, if_pos rfl, List.nil_append, ← List.append_assoc]
    refine (bind_ok (peek_ok (hBefore.append hAfter) hBlank)).trans ?_
    simp only [hClosing, if_false, if_true]
    rfl
  | false =>
    rw [comma, if_neg (by decide), List.singleton_append]
    refine (bind_ok (peek_ok hBefore (by decide))).trans ?_
    simp only [Char.reduceEq, Bool.false_eq_true, if_false, if_true]
    refine (bind_ok rfl).trans ?_
    refine (bind_ok (peek_ok hAfter hBlank)).trans ?_
    simp only [hClosing, if_false]
    rfl

theorem hasMember_nil {first : Bool} (hBefore : Blank before) :
    hasMember first room (before ++ '}' :: rest) = .ok (false, '}' :: rest) := by
  refine (bind_ok (peek_ok hBefore (by decide))).trans ?_
  rfl

theorem hasMember_cons {first : Bool} (hBefore : Blank before) (hAfter : Blank after) :
    hasMember first room (before ++ (comma first ++ (after ++ '"' :: rest))) = .ok (true, rest) := by
  cases first with
  | true =>
    rw [comma, if_pos rfl, List.nil_append, ← List.append_assoc]
    refine (bind_ok (peek_ok (hBefore.append hAfter) (by decide))).trans ?_
    simp only [Char.reduceEq, if_false, if_true]
    rfl
  | false =>
    rw [comma, if_neg (by decide), List.singleton_append]
    refine (bind_ok (peek_ok hBefore (by decide))).trans ?_
    simp only [Char.reduceEq, Bool.false_eq_true, if_false, if_true]
    refine (bind_ok rfl).trans ?_
    refine (bind_ok (peek_ok hAfter (by decide))).trans ?_
    simp only [if_true]
    rfl

theorem stringBody_ok {quoted : List Char} {name : String}
    (h : ∀ more, readString (quoted ++ more) = .ok (name.toList, more)) :
    stringBody room (quoted ++ rest) = .ok (name, rest) := by
  have hRead : ofText readString room (quoted ++ rest) = .ok (name.toList, rest) := h rest
  rw [stringBody, map_ok hRead, String.ofList_toList]

theorem manyWithin_ok {item : Reader α} {first : Bool} {texts : List (List Char)} {text : List Char} {xs : List α}
    (h : Elements first texts text) (hItems : List.Forall₂ item.Takes texts xs) (hRoom : text.length ≤ room)
    (limit : List Char) (hLimit : texts.length < limit.length) :
    manyWithin hasElement item limit first room (text ++ ']' :: rest) = .ok (xs, ']' :: rest) := by
  -- What follows an item starts with a blank, a comma or the bracket, which no number takes along.
  induction h generalizing xs limit with
  | nil hBlanks =>
    cases hItems
    cases limit with
    | nil => cases hLimit
    | cons _ limit => exact (bind_ok (hasElement_nil hBlanks)).trans rfl
  | @cons first before after text others texts hBefore hAfter hText hRest ih =>
    cases hItems with
    | cons hItem hItems =>
    cases limit with
    | nil => cases hLimit
    | cons _ limit =>
      obtain ⟨c, tail, rfl, hBlank, hClosing⟩ := hText
      simp only [List.length_append, List.length_cons] at hRoom hLimit
      have hFirst := hItem room [] (others ++ ']' :: rest) blank_nil (by simp only [List.length_cons]; omega)
        (hRest.delimited rest)
      have hOthers := ih hItems (by omega) limit (by omega)
      simp only [List.append_assoc, List.cons_append]
      refine (bind_ok (hasElement_cons hBefore hAfter hBlank hClosing)).trans ?_
      simp only [if_true]
      refine (bind_ok hFirst).trans ?_
      exact (bind_ok hOthers).trans rfl

theorem many_ok {item : Reader α} {texts : List (List Char)} {text : List Char} {xs : List α}
    (h : Elements true texts text) (hItems : List.Forall₂ item.Takes texts xs) (hRoom : text.length ≤ room) :
    many hasElement item room (text ++ ']' :: rest) = .ok (xs, ']' :: rest) := by
  have hLength := h.length_le
  refine (bind_ok measure_ok).trans (manyWithin_ok h hItems hRoom _ ?_)
  simp only [List.length_cons, List.length_append]
  omega

theorem nested_ok {body : Reader α} {text : List Char} {x : α} (hRoom : 0 < room)
    (h : body (room - 1) text = .ok (x, rest)) : nested body room text = .ok (x, rest) := by
  cases room with
  | zero => cases hRoom
  | succ room => exact h

theorem nested_many_ok {item : Reader α} {texts : List (List Char)} {text : List Char} {xs : List α}
    (h : Elements true texts text) (hItems : List.Forall₂ item.Takes texts xs) (hRoom : text.length < room) :
    nested (do take; many hasElement item) room ('[' :: (text ++ ']' :: rest)) = .ok (xs, ']' :: rest) :=
  nested_ok (by omega) ((bind_ok rfl).trans (many_ok h hItems (by omega)))

theorem takes_list {item : Reader α} {texts : List (List Char)} {text : List Char} {xs : List α}
    (h : Elements true texts text) (hItems : List.Forall₂ item.Takes texts xs) :
    (list item).Takes ('[' :: (text ++ [']'])) xs := by
  intro room blanks rest hBlanks hRoom hRest
  simp only [List.length_cons, List.length_append, List.length_nil] at hRoom
  simp only [List.cons_append, List.append_assoc, List.nil_append]
  refine (bind_ok (peek_ok hBlanks (by decide))).trans ?_
  refine (bind_ok (nested_many_ok h hItems (by omega))).trans ?_
  exact (bind_ok (endList_ok blank_nil)).trans rfl

/-! ### Members -/

/-- What the members of an object, given by their names and the texts of their values, make of a state. -/
inductive Chain (step : σ → String → Reader σ) : σ → List (String × List Char) → σ → Prop
  | nil (state : σ) : Chain step state [] state
  | cons {state state' state'' : σ} {name : String} {text : List Char} {members : List (String × List Char)}
    (hStep : ∀ blanks, Blank blanks → (step state name).Takes (':' :: (blanks ++ text)) state')
    (hRest : Chain step state' members state'') : Chain step state ((name, text) :: members) state''

theorem foldWithin_ok {step : σ → String → Reader σ} {first : Bool} {members : List (String × List Char)}
    {text : List Char} {state state' : σ} (h : Members first members text) (hChain : Chain step state members state')
    (hRoom : text.length ≤ room) (limit : List Char) (hLimit : members.length < limit.length) :
    foldWithin step limit first state room (text ++ '}' :: rest) = .ok (state', '}' :: rest) := by
  induction h generalizing state limit with
  | nil hBlanks =>
    cases hChain
    cases limit with
    | nil => cases hLimit
    | cons _ limit => exact (bind_ok (hasMember_nil hBlanks)).trans rfl
  | @cons first before after beforeColon afterColon quoted text others name members hBefore hAfter hBeforeColon
      hAfterColon hName hRest ih =>
    cases hChain with
    | cons hStep hChain =>
    cases limit with
    | nil => cases hLimit
    | cons _ limit =>
      simp only [List.length_append, List.length_cons] at hRoom hLimit
      -- The step reads the colon itself, so that a repeated member is refused before it.
      have hFirst := hStep afterColon hAfterColon room beforeColon (others ++ '}' :: rest) hBeforeColon
        (by simp only [List.length_cons, List.length_append]; omega) (hRest.delimited rest)
      have hOthers := ih hChain (by omega) limit (by omega)
      simp only [List.append_assoc, List.cons_append] at hFirst ⊢
      refine (bind_ok (hasMember_cons hBefore hAfter)).trans ?_
      simp only [if_true]
      refine (bind_ok (stringBody_ok hName)).trans ?_
      exact (bind_ok hFirst).trans hOthers

theorem fold_ok {step : σ → String → Reader σ} {members : List (String × List Char)} {text : List Char}
    {state state' : σ} (h : Members true members text) (hChain : Chain step state members state')
    (hRoom : text.length ≤ room) : fold step state room (text ++ '}' :: rest) = .ok (state', '}' :: rest) := by
  have hLength := h.length_le
  refine (bind_ok measure_ok).trans (foldWithin_ok h hChain hRoom _ ?_)
  simp only [List.length_cons, List.length_append]
  omega

theorem nested_fold_ok {step : σ → String → Reader σ} {members : List (String × List Char)} {text : List Char}
    {state state' : σ} (h : Members true members text) (hChain : Chain step state members state')
    (hRoom : text.length < room) :
    nested (do take; fold step state) room ('{' :: (text ++ '}' :: rest)) = .ok (state', '}' :: rest) :=
  nested_ok (by omega) ((bind_ok rfl).trans (fold_ok h hChain (by omega)))

theorem takes_colon {value : Reader α} {next : α → Reader β} {text blanks : List Char} {x : α} {y : β}
    (hValue : value.Takes text x) (hBlanks : Blank blanks) (hNext : ∀ room rest, next x room rest = .ok (y, rest)) :
    Takes (do colon; next (← value)) (':' :: (blanks ++ text)) y := by
  intro room before rest hBefore hRoom hRest
  simp only [List.length_cons, List.length_append] at hRoom
  rw [List.cons_append, List.append_assoc]
  refine (bind_ok (colon_ok hBefore)).trans ?_
  refine (bind_ok (hValue room blanks rest hBlanks (by omega) hRest)).trans ?_
  exact hNext room rest

end items

/-- A whole text may have blanks around what is taken. -/
theorem run_of_takes {reader : Reader α} {inner : List Char} {x : α} (h : reader.Takes inner x) {before after : List Char}
    (hBefore : Blank before) (hAfter : Blank after) {text : String} (hText : text.toList = before ++ (inner ++ after))
    {room : Nat} (hRoom : inner.length ≤ room) : reader.run room text = .ok x := by
  have hDelimited := Delimited.blanks hAfter delimited_nil
  have hRest : (after ++ []).dropWhile isBlank = [] := List.dropWhile_append_of_pos hAfter
  rw [List.append_nil] at hDelimited hRest
  rw [run, hText, h room before after hBefore hRoom hDelimited]
  simp only [bind, Except.bind, hRest]
  rfl

end Reader

end Listfile.Json
