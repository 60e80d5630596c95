import Listfile.Proofs.Json.Records
/-! # One text, one value

Values with no numbers but integers are told apart by what is written for them, in one layout and at one depth. What is
read for two such texts decides it for single values; arrays and objects, of which only the sorted forms are read, are
compared item by item.
-/
namespace Listfile.Json
set_option autoImplicit false

theorem Plain.writable {value : Json} (h : value.Plain) : value.Writable := by
  cases value with
  | number value =>
    cases value with
    | integer => exact h
    | double => exact h.elim
  | _ => trivial

theorem plain_ofNat {n : Nat} (h : Fits n) : (ofNat n).Everywhere Plain := by
  intro inner hInner
  cases hInner
  exact ⟨by omega, Int.ofNat_lt.mpr h⟩

theorem plain_string (s : String) : (string s).Everywhere Plain := by
  intro inner hInner
  cases hInner
  trivial

/-- Whether a character neither goes on with a number nor with a list of items. -/
def Ends (c : Char) : Prop := (isDigit c = false ∧ c ≠ '.' ∧ c ≠ 'e' ∧ c ≠ 'E') ∧ c ≠ ','

instance : DecidablePred Ends := fun _ => inferInstanceAs (Decidable (_ ∧ _))

/-- What may follow the last item of an array or object. -/
def Ended (rest : List Char) : Prop := ∀ c ∈ rest.head?, Ends c

variable {layout : Layout} {depth : Nat} {rest rest' : List Char}

theorem ended_newline {closing : Char} (h : Ends closing) (more : List Char) :
    Ended (layout.newline depth ++ closing :: more) := by
  cases layout <;> rintro c hc <;> cases hc
  · exact h
  · decide

theorem not_ended_of_eq {more : List Char} (h : rest = ',' :: more) : ¬Ended rest := by
  subst h
  exact fun h => (h ',' rfl).2 rfl

theorem Ended.delimited (h : Ended rest) : Delimited rest := fun c hc => (h c hc).1

theorem delimited_writeElements (elements : List Json) (h : Ended rest) :
    Delimited (writeElements layout depth elements rest) := by
  cases elements with
  | nil => exact h.delimited
  | cons => exact delimited_cons (by decide) _

theorem delimited_writeMembers (members : List (String × Json)) (h : Ended rest) :
    Delimited (writeMembers layout depth members rest) := by
  cases members with
  | nil => exact h.delimited
  | cons => exact delimited_cons (by decide) _

theorem quote_injective {s t : String} (h : quote s rest = quote t rest') : s = t ∧ rest = rest' := by
  rw [quote_eq, quote_eq] at h
  have hRead := readString_quotedRest s rest
  rw [(List.cons.inj h).2, readString_quotedRest] at hRead
  obtain ⟨hText, hRests⟩ := Prod.mk.inj (Except.ok.inj hRead)
  exact ⟨String.toList_injective hText.symm, hRests.symm⟩

/-- Where the texts of two values are the same, so is what is read for them. -/
theorem sorted_eq_of_write_eq {a b : Json} (ha : a.Everywhere Plain) (hb : b.Everywhere Plain)
    (hRest : Delimited rest) (hRest' : Delimited rest') (h : a.write layout depth rest = b.write layout depth rest') :
    a.sorted = b.sorted ∧ rest = rest' := by
  have hWritableA : a.Everywhere Writable := fun inner hInner => (ha inner hInner).writable
  have hWritableB : b.Everywhere Writable := fun inner hInner => (hb inner hInner).writable
  have hA := Reader.takes_value hWritableA (spelled_written layout a hWritableA depth)
    ((a.written layout depth).length + (b.written layout depth).length) [] rest blank_nil (by omega) hRest
  have hB := Reader.takes_value hWritableB (spelled_written layout b hWritableB depth)
    ((a.written layout depth).length + (b.written layout depth).length) [] rest' blank_nil (by omega) hRest'
  rw [← write_eq, reread_of_plain _ ha, h] at hA
  rw [← write_eq, reread_of_plain _ hb, hA] at hB
  exact Prod.mk.inj (Except.ok.inj hB)

/-! ## Items -/

/-- Behind the opening bracket the elements of an array are written as those of its tail, but for the first comma. -/
theorem writeElements_eq_of_array {as bs : List Json} (hSorted : sortedElements as = sortedElements bs)
    (h : (array as).write layout depth rest = (array bs).write layout depth rest') :
    writeElements layout (depth + 1) as (layout.newline depth ++ ']' :: rest) =
      writeElements layout (depth + 1) bs (layout.newline depth ++ ']' :: rest') := by
  match as, bs with
  | [], [] => cases h; rfl
  | [], _ :: _ | _ :: _, [] => cases hSorted
  | _ :: _, _ :: _ => exact congrArg (',' :: ·) (List.cons.inj h).2

theorem writeMembers_eq_of_object {as bs : List (String × Json)}
    (h : (object as).write layout depth rest = (object bs).write layout depth rest') :
    writeMembers layout (depth + 1) as (layout.newline depth ++ '}' :: rest) =
      writeMembers layout (depth + 1) bs (layout.newline depth ++ '}' :: rest') := by
  match as, bs with
  | [], [] => cases h; rfl
  | [], _ :: _ | _ :: _, [] => cases layout <;> cases h
  | _ :: _, _ :: _ => exact congrArg (',' :: ·) (List.cons.inj h).2

mutual

/-- What is written for two values, whatever follows, is the same only for the same value. -/
theorem write_injective (depth : Nat) {rest rest' : List Char} (a b : Json) (ha : a.Everywhere Plain)
    (hb : b.Everywhere Plain) (hRest : Delimited rest) (hRest' : Delimited rest')
    (h : a.write layout depth rest = b.write layout depth rest') : a = b ∧ rest = rest' := by
  obtain ⟨hSorted, hRests⟩ := sorted_eq_of_write_eq ha hb hRest hRest' h
  refine ⟨?_, hRests⟩
  match a, b with
  | array as, array bs =>
    have hItems := writeElements_eq_of_array (array.inj hSorted) h
    rw [writeElements_injective (depth + 1) as bs (fun _ hElement => ha.element hElement)
      (fun _ hElement => hb.element hElement) (ended_newline (by decide) rest) (ended_newline (by decide) rest') hItems]
  | object as, object bs =>
    have hItems := writeMembers_eq_of_object h
    rw [writeMembers_injective (depth + 1) as bs (fun _ hMember => ha.member hMember)
      (fun _ hMember => hb.member hMember) (ended_newline (by decide) rest) (ended_newline (by decide) rest') hItems]
  | null, b | bool _, b | number _, b | string _, b => cases b <;> first | exact hSorted | cases hSorted
  | array _, null | array _, bool _ | array _, number _ | array _, string _ | array _, object _ => cases hSorted
  | object _, null | object _, bool _ | object _, number _ | object _, string _ | object _, array _ => cases hSorted

theorem writeElements_injective (depth : Nat) {rest rest' : List Char} (as bs : List Json)
    (has : ∀ a ∈ as, a.Everywhere Plain) (hbs : ∀ b ∈ bs, b.Everywhere Plain) (hRest : Ended rest)
    (hRest' : Ended rest') (h : writeElements layout depth as rest = writeElements layout depth bs rest') :
    as = bs := by
  match as, bs with
  | [], [] => rfl
  | [], _ :: _ => exact absurd hRest (not_ended_of_eq h)
  | _ :: _, [] => exact absurd hRest' (not_ended_of_eq h.symm)
  | a :: as, b :: bs =>
    obtain ⟨ha, has⟩ := List.forall_mem_cons.mp has
    obtain ⟨hb, hbs⟩ := List.forall_mem_cons.mp hbs
    have hTexts := List.append_cancel_left (List.cons.inj h).2
    obtain ⟨hSame, hOthers⟩ := write_injective depth a b ha hb (delimited_writeElements as hRest)
      (delimited_writeElements bs hRest') hTexts
    rw [hSame, writeElements_injective depth as bs has hbs hRest hRest' hOthers]

theorem writeMembers_injective (depth : Nat) {rest rest' : List Char} (as bs : List (String × Json))
    (has : ∀ a ∈ as, a.2.Everywhere Plain) (hbs : ∀ b ∈ bs, b.2.Everywhere Plain) (hRest : Ended rest)
    (hRest' : Ended rest') (h : writeMembers layout depth as rest = writeMembers layout depth bs rest') : as = bs := by
  match as, bs with
  | [], [] => rfl
  | [], (_, _) :: _ => exact absurd hRest (not_ended_of_eq h)
  | (_, _) :: _, [] => exact absurd hRest' (not_ended_of_eq h.symm)
  | (name, a) :: as, (name', b) :: bs =>
    obtain ⟨ha, has⟩ := List.forall_mem_cons.mp has
    obtain ⟨hb, hbs⟩ := List.forall_mem_cons.mp hbs
    obtain ⟨hNames, hTexts⟩ := quote_injective (List.append_cancel_left (List.cons.inj h).2)
    have hTexts := List.append_cancel_left hTexts
    obtain ⟨hSame, hOthers⟩ := write_injective depth a b ha hb (delimited_writeMembers as hRest)
      (delimited_writeMembers bs hRest') hTexts
    rw [hNames, hSame, writeMembers_injective depth as bs has hbs hRest hRest' hOthers]

end

/-- Two values with no numbers but integers are the same if they have the same text. -/
theorem render_injective {a b : Json} (ha : a.Everywhere Plain) (hb : b.Everywhere Plain)
    (h : a.render layout = b.render layout) : a = b :=
  (write_injective 0 a b ha hb delimited_nil delimited_nil (String.ofList_injective h)).1

end Listfile.Json
