import Listfile.Json.Record
/-! # How deep readers go

A reader is shallow if it opens no more than some number of levels of brackets, so that more room makes no difference to
it, be it in what it gives or in why it refuses a text. Readers of strings open none, what is passed over counts for
none, and records and objects open one more than their members. So a limit on nesting does not matter to shallow readers.
-/
namespace Listfile.Json
set_option autoImplicit false

variable {α β σ : Type} {levels : Nat}

namespace Reader

/-- Whether a reader does the same in every room that has at least so many levels. -/
def Shallow (levels : Nat) (reader : Reader α) : Prop :=
  ∀ room room' text, levels ≤ room → levels ≤ room' → reader room text = reader room' text

/-! ## Steps -/

section steps

variable {part part' : Reader α} {next : α → Reader β}

theorem Shallow.bind (h : part.Shallow levels) (hNext : ∀ x, (next x).Shallow levels) :
    (part >>= next).Shallow levels := by
  intro room room' text hRoom hRoom'
  simp only [Bind.bind, ReaderT.bind, StateT.bind, h room room' text hRoom hRoom']
  cases part room' text with
  | error error => rfl
  | ok result => exact hNext result.1 room room' result.2 hRoom hRoom'

theorem Shallow.ite {p : Prop} [Decidable p] (h : part.Shallow levels) (h' : part'.Shallow levels) :
    (if p then part else part').Shallow levels := by
  split
  · exact h
  · exact h'

theorem Shallow.nested (h : part.Shallow levels) : (nested part).Shallow (levels + 1) := by
  intro room room' text hRoom hRoom'
  obtain ⟨room, rfl⟩ := Nat.exists_eq_add_of_le' hRoom
  obtain ⟨room', rfl⟩ := Nat.exists_eq_add_of_le' hRoom'
  exact h _ _ text (Nat.le_add_left _ _) (Nat.le_add_left _ _)

theorem shallow_pure (x : α) : (pure x : Reader α).Shallow levels := fun _ _ _ _ _ => rfl

theorem Shallow.map {f : α → β} (h : part.Shallow levels) : (f <$> part).Shallow levels := by
  rw [← bind_pure_comp]
  exact h.bind fun x => shallow_pure (f x)

theorem shallow_throw (error : ReadError) : (throw error : Reader α).Shallow levels := fun _ _ _ _ _ => rfl

theorem shallow_ofExcept (result : Except ReadError α) : (ofExcept result : Reader α).Shallow levels := by
  cases result with
  | error error => exact shallow_throw error
  | ok x => exact shallow_pure x

theorem shallow_ofText (read : List Char → Except ReadError (α × List Char)) : (ofText read).Shallow levels :=
  fun _ _ _ _ _ => rfl

theorem shallow_get : (get : Reader (List Char)).Shallow levels := fun _ _ _ _ _ => rfl

theorem shallow_set (text : List Char) : (set text : Reader PUnit).Shallow levels := fun _ _ _ _ _ => rfl

theorem shallow_peek : peek.Shallow levels := fun _ _ _ _ _ => rfl

theorem shallow_take : take.Shallow levels := fun _ _ _ _ _ => rfl

theorem shallow_measure : measure.Shallow levels := fun _ _ _ _ _ => rfl

theorem shallow_stringBody : stringBody.Shallow levels := (shallow_ofText readString).map

theorem shallow_literal (cs : List Char) : (literal cs).Shallow levels := by
  induction cs with
  | nil => exact shallow_pure ()
  | cons c cs ih =>
    apply shallow_get.bind
    intro text
    split
    · exact shallow_throw _
    · exact (shallow_set _).bind fun _ => ih.ite (shallow_throw _)

theorem shallow_mismatch (expected : String) : (mismatch expected : Reader α).Shallow levels := by
  have hLiteral (cs : List Char) (error : ReadError) :
      (do take; literal cs; throw error : Reader α).Shallow levels :=
    shallow_take.bind fun _ => (shallow_literal cs).bind fun _ => shallow_throw error
  have hNumber (negative : Bool) :
      (do throw (.wrongType (.number (← ofText (readNumber negative))) expected) : Reader α).Shallow levels :=
    (shallow_ofText _).bind fun _ => shallow_throw _
  have hString : (do throw (.wrongType (.string (← stringBody)) expected) : Reader α).Shallow levels :=
    shallow_stringBody.bind fun _ => shallow_throw _
  apply shallow_peek.bind
  intro next
  split
  · exact shallow_throw _
  · apply Shallow.ite (hLiteral _ _)
    apply Shallow.ite (hLiteral _ _)
    apply Shallow.ite (hLiteral _ _)
    apply Shallow.ite (shallow_take.bind fun _ => hNumber true)
    apply Shallow.ite (hNumber false)
    apply Shallow.ite (shallow_take.bind fun _ => hString)
    apply Shallow.ite (shallow_throw _)
    exact .ite (shallow_throw _) (shallow_throw _)

theorem shallow_string : string.Shallow levels := by
  apply shallow_peek.bind
  intro next
  split
  · exact shallow_take.bind fun _ => shallow_stringBody
  · exact shallow_mismatch _

end steps

/-! ## Items of lists and objects -/

section items

variable {more : Bool → Reader Bool} {item : Reader α} {step : σ → String → Reader σ}

theorem shallow_hasElement (first : Bool) : (hasElement first).Shallow levels := by
  apply shallow_peek.bind
  intro next
  split
  · exact shallow_throw _
  · apply Shallow.ite (shallow_pure _)
    apply Shallow.ite (shallow_pure _)
    refine .ite (shallow_take.bind fun _ => shallow_peek.bind fun next => ?_) (shallow_throw _)
    split
    · exact shallow_throw _
    · exact .ite (shallow_throw _) (shallow_pure _)

theorem shallow_hasMember (first : Bool) : (hasMember first).Shallow levels := by
  have hTake : (do take; return true).Shallow levels := shallow_take.bind fun _ => shallow_pure true
  apply shallow_peek.bind
  intro next
  split
  · exact shallow_throw _
  · apply Shallow.ite (shallow_pure _)
    apply Shallow.ite (.ite hTake (shallow_throw _))
    refine .ite (shallow_take.bind fun _ => shallow_peek.bind fun next => ?_) (shallow_throw _)
    split
    · exact shallow_throw _
    · exact .ite hTake (.ite (shallow_throw _) (shallow_throw _))

theorem shallow_colon : colon.Shallow levels := by
  apply shallow_peek.bind
  intro next
  split
  · exact shallow_throw _
  · exact .ite shallow_take (shallow_throw _)

theorem shallow_endList : endList.Shallow levels := by
  apply shallow_peek.bind
  intro next
  split
  · exact shallow_throw _
  · apply Shallow.ite shallow_take
    refine .ite (shallow_take.bind fun _ => shallow_peek.bind fun next => ?_) (shallow_throw _)
    exact .ite (shallow_throw _) (shallow_throw _)

theorem shallow_endObject : endObject.Shallow levels := by
  apply shallow_peek.bind
  intro next
  split
  · exact shallow_throw _
  · exact .ite shallow_take (.ite (shallow_throw _) (shallow_throw _))

theorem Shallow.manyWithin (hMore : ∀ first, (more first).Shallow levels) (hItem : item.Shallow levels)
    (limit : List Char) (first : Bool) : (manyWithin more item limit first).Shallow levels := by
  induction limit generalizing first with
  | nil => exact shallow_throw _
  | cons c limit ih =>
    refine (hMore first).bind fun found => .ite (hItem.bind fun x => (ih false).bind fun xs => ?_) (shallow_pure _)
    exact shallow_pure (x :: xs)

theorem Shallow.many (hMore : ∀ first, (more first).Shallow levels) (hItem : item.Shallow levels) :
    (many more item).Shallow levels := shallow_measure.bind fun limit => .manyWithin hMore hItem limit true

theorem Shallow.foldWithin (hStep : ∀ state name, (step state name).Shallow levels) (limit : List Char) (first : Bool)
    (state : σ) : (foldWithin step limit first state).Shallow levels := by
  induction limit generalizing first state with
  | nil => exact shallow_throw _
  | cons c limit ih =>
    refine (shallow_hasMember first).bind fun found => .ite ?_ (shallow_pure state)
    exact shallow_stringBody.bind fun name => (hStep state name).bind fun state' => ih false state'

theorem Shallow.fold (hStep : ∀ state name, (step state name).Shallow levels) (state : σ) :
    (fold step state).Shallow levels := shallow_measure.bind fun limit => .foldWithin hStep limit true state

/-! ### What is passed over -/

theorem shallow_skipHasElement (first : Bool) : (skipHasElement first).Shallow levels := by
  apply shallow_peek.bind
  intro next
  split
  · exact shallow_throw _
  · apply Shallow.ite (shallow_pure _)
    apply Shallow.ite (shallow_pure _)
    exact .ite (shallow_take.bind fun _ => shallow_pure _) (shallow_throw _)

theorem shallow_skipHasMember (first : Bool) : (skipHasMember first).Shallow levels := by
  apply shallow_peek.bind
  intro next
  split
  · exact shallow_throw _
  · apply Shallow.ite (shallow_pure _)
    apply Shallow.ite (shallow_throw _)
    -- Whether a comma is taken or not, a quote has to follow.
    refine .ite (shallow_take.bind fun _ => shallow_peek.bind fun next => ?_) (shallow_peek.bind fun next => ?_)
    all_goals
      split
      · exact shallow_throw _
      · exact .ite (shallow_take.bind fun _ => shallow_pure _) (shallow_throw _)

theorem shallow_skipWithin (depth : List Char) : (skipWithin depth).Shallow levels := by
  induction depth with
  | nil => exact shallow_throw _
  | cons c depth ih =>
    have hLiteral (cs : List Char) : (do take; literal cs).Shallow levels :=
      shallow_take.bind fun _ => shallow_literal cs
    have hMember : (do
        ofText fun text => (skipString text).map ((), ·)
        colon
        skipWithin depth).Shallow levels :=
      (shallow_ofText _).bind fun _ => shallow_colon.bind fun _ => ih
    apply shallow_peek.bind
    intro next
    split
    · exact shallow_throw _
    · apply Shallow.ite (hLiteral _)
      apply Shallow.ite (hLiteral _)
      apply Shallow.ite (hLiteral _)
      apply Shallow.ite (shallow_take.bind fun _ => shallow_ofText _)
      apply Shallow.ite (shallow_ofText _)
      apply Shallow.ite (shallow_take.bind fun _ => shallow_ofText _)
      apply Shallow.ite
      · exact shallow_take.bind fun _ => (Shallow.many shallow_skipHasElement ih).bind fun _ => shallow_take
      apply Shallow.ite
      · exact shallow_take.bind fun _ => (Shallow.many shallow_skipHasMember hMember).bind fun _ => shallow_take
      · exact shallow_throw _

theorem shallow_skip : skip.Shallow levels := shallow_measure.bind fun depth => shallow_skipWithin depth

end items

/-! ## Whole texts -/

/-- How many levels may be opened does not matter to a shallow reader. -/
theorem Shallow.run_eq {reader : Reader α} (h : reader.Shallow levels) {room room' : Nat} (hRoom : levels ≤ room)
    (hRoom' : levels ≤ room') (text : String) : reader.run room text = reader.run room' text := by
  rw [run, run, h room room' text.toList hRoom hRoom']

end Reader

/-! ## Records -/

namespace Record

open Reader

variable {τ : Type}

/-- Whether the readers of all members are shallow. -/
def Shallow (levels : Nat) {τ : Type} : Record τ → Prop
  | done => True
  | member _ value _ rest => value.Shallow levels ∧ rest.Shallow levels

theorem shallow_readMember {record : Record τ} (h : record.Shallow levels) (slots : record.Slots) (key : String) :
    (record.readMember slots key).Shallow levels := by
  induction record with
  | done => exact shallow_colon.bind fun _ => shallow_skip.bind fun _ => shallow_pure slots
  | member name value absent rest ih =>
    obtain ⟨hValue, hRest⟩ := h
    obtain ⟨slot, others⟩ := slots
    rw [readMember]
    apply Reader.Shallow.ite
    · have hFilled : (do
          Reader.colon
          return (some (← value), others) : Reader (member name value absent rest).Slots).Shallow levels :=
        shallow_colon.bind fun _ => hValue.bind fun x => shallow_pure (some x, others)
      exact .ite ((shallow_throw _).bind fun _ => hFilled) hFilled
    · exact (ih hRest others).bind fun others' => shallow_pure (slot, others')

theorem shallow_readElements {record : Record τ} (h : record.Shallow levels) (expected : String) (index : Nat) :
    (record.readElements expected index).Shallow levels := by
  induction record generalizing index with
  | done => exact shallow_pure ()
  | member name value absent rest ih =>
    obtain ⟨hValue, hRest⟩ := h
    refine (shallow_hasElement _).bind fun found => .ite ?_ (shallow_throw _)
    exact hValue.bind fun x => (ih hRest (index + 1)).bind fun xs => shallow_pure (x, xs)

theorem shallow_read {record : Record τ} (h : record.Shallow levels) (name : String) :
    (record.read name).Shallow (levels + 1) := by
  apply shallow_peek.bind
  intro next
  split
  · have hElements (expected : String) : (do take; record.readElements expected 0).Shallow levels :=
      shallow_take.bind fun _ => shallow_readElements h expected 0
    exact (hElements _).nested.bind fun result => shallow_endList.bind fun _ => shallow_pure result
  · have hMembers : (do take; fold record.readMember record.noSlots).Shallow levels :=
      shallow_take.bind fun _ => .fold (shallow_readMember h) record.noSlots
    exact hMembers.nested.bind fun slots => (shallow_ofExcept _).bind fun result =>
      shallow_endObject.bind fun _ => shallow_pure result
  · exact shallow_mismatch _

end Record

end Listfile.Json
