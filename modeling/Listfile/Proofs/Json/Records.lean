import Listfile.Json.Record
import Listfile.Proofs.Json.Written
/-! # Reading back values of known type

Readers for values of one type take the spellings of such a value. What a record makes of a member depends on whether it
has one of that name, and on whether it has been read before.
-/
namespace Listfile.Json
set_option autoImplicit false

variable {α : Type} {text : List Char}

namespace Reader

theorem takes_value {value : Json} (h : value.Everywhere Writable) (hText : value.Spelled text) :
    Reader.value.Takes text value.reread.sorted := by
  intro room blanks rest hBlanks hRoom hRest
  refine (bind_ok measure_ok).trans ?_
  refine takes_valueWithin value h hText _ ?_ room blanks rest hBlanks hRoom hRest
  simp only [List.length_cons, List.length_append]
  omega

theorem takes_string {value : String} (h : Quoted value text) : string.Takes text value := by
  obtain ⟨body, rfl, hRead⟩ := h
  intro room blanks rest hBlanks _ _
  refine (bind_ok (peek_ok hBlanks (by decide))).trans ?_
  refine (bind_ok rfl).trans ?_
  exact stringBody_ok hRead

theorem takes_natural {n : Nat} (h : Fits n) : natural.Takes (Nat.toDigits 10 n) n := by
  intro room blanks rest hBlanks _ hRest
  have hRead := readNumber_toDigits false h hRest
  obtain ⟨first, others, hDigits, hDigit⟩ := toDigits_eq_cons n
  rw [hDigits] at hRead
  rw [hDigits, List.cons_append]
  have hNumber : (ofText (readNumber false)) room (first :: (others ++ rest)) = .ok (.integer n, rest) := hRead
  have hFirst : (first = '-') = False := eq_false (ne_of_isDigit hDigit (by decide))
  refine (bind_ok (peek_ok hBlanks (isBlank_of_isDigit hDigit))).trans ?_
  simp only [hFirst, hDigit, if_false, if_true]
  exact (bind_ok hNumber).trans rfl

theorem takes_optional_none (value : Reader α) : (optional value).Takes ['n', 'u', 'l', 'l'] none := by
  intro room blanks rest hBlanks _ _
  refine (bind_ok (peek_ok hBlanks (by decide))).trans ?_
  refine (bind_ok rfl).trans ?_
  exact (bind_ok (literal_ok ['u', 'l', 'l'])).trans rfl

theorem takes_optional_some {value : Reader α} {x : α} (h : value.Takes ('{' :: text) x) :
    (optional value).Takes ('{' :: text) (some x) := by
  intro room blanks rest hBlanks hRoom hRest
  refine (bind_ok (peek_ok hBlanks (by decide))).trans ?_
  exact map_ok (h room [] rest blank_nil hRoom hRest)

theorem takes_variant {variants : List (String × α)} {name : String} {x : α} (hText : Quoted name text)
    (h : variants.lookup name = some x) : (variant variants).Takes text x := by
  obtain ⟨body, rfl, hRead⟩ := hText
  intro room blanks rest hBlanks _ _
  have hName : variantName variants room ('"' :: (body ++ rest)) = .ok (x, rest) := by
    refine (bind_ok (peek_ok blank_nil (by decide))).trans ?_
    refine (bind_ok rfl).trans ?_
    refine (bind_ok (stringBody_ok hRead)).trans ?_
    simp only [h]
    rfl
  refine (bind_ok (peek_ok hBlanks (by decide))).trans ?_
  simp only [if_true]
  exact hName

end Reader

/-! ## Records -/

namespace Record

def names {τ : Type} : Record τ → List String
  | done => []
  | member name _ _ rest => name :: rest.names

section member

variable {τ : Type} (name : String) (value : Reader α) (absent : Option α) (rest : Record τ) (others : rest.Slots)

theorem readMember_of_ne {key : String} (h : key ≠ name) (slot : Option α) :
    (member name value absent rest).readMember (slot, others) key =
      (do return (slot, ← rest.readMember others key)) := by
  rw [readMember]
  exact if_neg h

theorem readMember_none : (member name value absent rest).readMember (none, others) name =
    (do Reader.colon; return (some (← value), others)) := by
  rw [readMember]
  exact if_pos rfl

theorem readMember_some (x : α) : (member name value absent rest).readMember (some x, others) name =
    (do throw (.repeatedMember name); Reader.colon; return (some (← value), others)) := by
  rw [readMember]
  exact if_pos rfl

end member

end Record

end Listfile.Json
