import Listfile.Proofs.Json.Records
/-! # What readers give

A value that a reader gives, on whatever text, comes from the readers of its parts. So the elements of a list and the
members of a record are given by the readers of these, numbers that count something fit, and the members of every object
inside a value are sorted.
-/
namespace Listfile.Json
set_option autoImplicit false

variable {α β σ : Type}

theorem fits_of_readNumber {negative : Bool} {text rest : List Char} {n : Nat}
    (h : readNumber negative text = .ok (.integer n, rest)) : Fits n := by
  obtain ⟨-, hHigh⟩ := writable_of_readNumber negative h
  exact Int.ofNat_lt.mp hHigh

namespace Reader

def Gives (reader : Reader α) (x : α) : Prop := ∃ room text rest, reader room text = .ok (x, rest)

section steps

variable {part body : Reader α} {next : α → Reader β} {x : α} {y : β}

theorem gives_bind (h : (part >>= next).Gives y) : ∃ x, part.Gives x ∧ (next x).Gives y := by
  obtain ⟨room, text, rest, h⟩ := h
  cases hPart : part room text with
  | error error =>
    simp only [bind, ReaderT.bind, StateT.bind, hPart, Except.bind] at h
    cases h
  | ok result =>
    obtain ⟨x, text'⟩ := result
    rw [bind_ok hPart] at h
    exact ⟨x, ⟨room, text, text', hPart⟩, ⟨room, text', rest, h⟩⟩

theorem gives_pure {other : α} (h : Gives (pure x) other) : x = other := by
  obtain ⟨_, _, _, h⟩ := h
  cases h
  rfl

theorem gives_map {f : α → β} (h : (f <$> part).Gives y) : ∃ x, part.Gives x ∧ f x = y := by
  rw [← bind_pure_comp] at h
  obtain ⟨x, hPart, h⟩ := gives_bind h
  exact ⟨x, hPart, gives_pure h⟩

theorem not_gives_throw {error : ReadError} : ¬Gives (throw error) x := by
  rintro ⟨_, _, _, h⟩
  cases h

theorem gives_ofExcept {result : Except ReadError α} (h : Gives (ofExcept result) x) : result = .ok x := by
  cases result with
  | error error => exact absurd h not_gives_throw
  | ok y => rw [gives_pure h]

theorem gives_ofText {read : List Char → Except ReadError (α × List Char)} (h : (ofText read).Gives x) :
    ∃ text rest, read text = .ok (x, rest) := by
  obtain ⟨_, text, rest, h⟩ := h
  exact ⟨text, rest, h⟩

theorem gives_nested (h : (nested body).Gives x) : body.Gives x := by
  obtain ⟨room, text, rest, h⟩ := h
  cases room with
  | zero => cases h
  | succ room => exact ⟨room, text, rest, h⟩

theorem not_gives_mismatch {expected : String} : ¬(mismatch expected : Reader α).Gives x := by
  intro h
  unfold mismatch at h
  obtain ⟨c, -, h⟩ := gives_bind h
  split at h
  · exact not_gives_throw h
  · iterate 3
      split at h
      · obtain ⟨-, -, h⟩ := gives_bind h
        obtain ⟨-, -, h⟩ := gives_bind h
        exact not_gives_throw h
    split at h
    · obtain ⟨-, -, h⟩ := gives_bind h
      obtain ⟨_, -, h⟩ := gives_bind h
      exact not_gives_throw h
    split at h
    · obtain ⟨_, -, h⟩ := gives_bind h
      exact not_gives_throw h
    split at h
    · obtain ⟨-, -, h⟩ := gives_bind h
      obtain ⟨_, -, h⟩ := gives_bind h
      exact not_gives_throw h
    iterate 2
      split at h
      · exact not_gives_throw h
    exact not_gives_throw h

end steps

/-! ## Items of lists and objects -/

section items

variable {more : Bool → Reader Bool} {item : Reader α} {xs : List α} {step : σ → String → Reader σ}
  {state state' : σ}

theorem gives_manyWithin {limit : List Char} {first : Bool} (h : (manyWithin more item limit first).Gives xs) :
    ∀ x ∈ xs, item.Gives x := by
  induction limit generalizing first xs with
  | nil => exact absurd h not_gives_throw
  | cons c limit ih =>
    rw [manyWithin] at h
    obtain ⟨_, -, h⟩ := gives_bind h
    split at h
    · obtain ⟨x, hItem, h⟩ := gives_bind h
      obtain ⟨others, hOthers, h⟩ := gives_bind h
      obtain rfl := gives_pure h
      exact List.forall_mem_cons.mpr ⟨hItem, ih hOthers⟩
    · obtain rfl := gives_pure h
      exact List.forall_mem_nil _

theorem gives_many (h : (many more item).Gives xs) : ∀ x ∈ xs, item.Gives x := by
  obtain ⟨_, -, h⟩ := gives_bind h
  exact gives_manyWithin h

variable (Invariant : σ → Prop)
  (hStep : ∀ state name state', Invariant state → (step state name).Gives state' → Invariant state')

include hStep

theorem gives_foldWithin {limit : List Char} {first : Bool} (hState : Invariant state)
    (h : (foldWithin step limit first state).Gives state') : Invariant state' := by
  induction limit generalizing first state with
  | nil => exact absurd h not_gives_throw
  | cons c limit ih =>
    rw [foldWithin] at h
    obtain ⟨_, -, h⟩ := gives_bind h
    split at h
    · obtain ⟨name, -, h⟩ := gives_bind h
      obtain ⟨next, hNext, h⟩ := gives_bind h
      exact ih (hStep state name next hState hNext) h
    · obtain rfl := gives_pure h
      exact hState

theorem gives_fold (hState : Invariant state) (h : (fold step state).Gives state') : Invariant state' := by
  obtain ⟨_, -, h⟩ := gives_bind h
  exact gives_foldWithin Invariant hStep hState h

end items

/-! ## Values of one type -/

theorem gives_list {item : Reader α} {xs : List α} (h : (list item).Gives xs) : ∀ x ∈ xs, item.Gives x := by
  unfold list at h
  obtain ⟨_, -, h⟩ := gives_bind h
  split at h
  · obtain ⟨items, hItems, h⟩ := gives_bind h
    obtain ⟨-, -, h⟩ := gives_bind h
    obtain rfl := gives_pure h
    obtain ⟨-, -, hItems⟩ := gives_bind (gives_nested hItems)
    exact gives_many hItems
  · exact absurd h not_gives_mismatch

theorem gives_optional {value : Reader α} {x : Option α} (h : (optional value).Gives x) : ∀ y ∈ x, value.Gives y := by
  unfold optional at h
  obtain ⟨_, -, h⟩ := gives_bind h
  split at h
  · obtain ⟨-, -, h⟩ := gives_bind h
    obtain ⟨-, -, h⟩ := gives_bind h
    obtain rfl := gives_pure h
    exact fun y hy => by cases hy
  · obtain ⟨y, hValue, rfl⟩ := gives_map h
    exact fun y' hy => by cases hy; exact hValue

theorem gives_number {next : Number → Reader Nat} {negative : Bool} {n : Nat}
    (hNext : ∀ number, (next number).Gives n → number = .integer n)
    (h : (ofText (readNumber negative) >>= next).Gives n) : Fits n := by
  obtain ⟨number, hNumber, h⟩ := gives_bind h
  obtain ⟨text, rest, hRead⟩ := gives_ofText hNumber
  rw [hNext number h] at hRead
  exact fits_of_readNumber hRead

theorem gives_natural {n : Nat} (h : natural.Gives n) : Fits n := by
  unfold natural at h
  obtain ⟨_, -, h⟩ := gives_bind h
  extract_lets next at h
  have hNext : ∀ number, (next number).Gives n → number = .integer n := by
    intro number hNumber
    simp only [next] at hNumber
    split at hNumber
    · rw [gives_pure hNumber, Int.ofNat_eq_natCast]
    · exact absurd hNumber not_gives_throw
    · exact absurd hNumber not_gives_throw
  split at h
  · obtain ⟨_, h, -⟩ := gives_bind h
    exact absurd h not_gives_mismatch
  · split at h
    · obtain ⟨-, -, h⟩ := gives_bind h
      exact gives_number hNext h
    · split at h
      · exact gives_number hNext h
      · obtain ⟨_, h, -⟩ := gives_bind h
        exact absurd h not_gives_mismatch

/-! ## Values of any type -/

theorem gives_members {value : Reader Json}
    (hValue : ∀ {x}, value.Gives x → x.Everywhere fun value => Writable value ∧ Ordered value)
    {members : List (String × Json)} (h : Gives (fold (fun members name => do
      colon
      return insertMember name (← value) members) []) members) :
    (object members).Everywhere fun value => Writable value ∧ Ordered value := by
  have hStep : ∀ (members : List (String × Json)) (name : String) (members' : List (String × Json)),
      ((object members).Everywhere fun value => Writable value ∧ Ordered value) →
        Gives (do colon; return insertMember name (← value) members) members' →
        (object members').Everywhere fun value => Writable value ∧ Ordered value := by
    intro members name members' hMembers hStep
    obtain ⟨-, -, hStep⟩ := gives_bind hStep
    obtain ⟨x, hx, hStep⟩ := gives_bind hStep
    obtain rfl := gives_pure hStep
    refine everywhere_object ⟨trivial, sorted_insertMember name x hMembers.self.2⟩ fun member hMember => ?_
    rcases mem_insertMember hMember with rfl | hMember
    · exact hValue hx
    · exact hMembers.member hMember
  have hNone : (object []).Everywhere fun value => Writable value ∧ Ordered value :=
    everywhere_object ⟨trivial, .nil⟩ (List.forall_mem_nil _)
  exact gives_fold (fun members => (object members).Everywhere fun value => Writable value ∧ Ordered value) hStep
    hNone h

theorem writable_of_gives {negative : Bool} {number : Number} (h : (ofText (readNumber negative)).Gives number) :
    number.Writable := by
  obtain ⟨text, rest, hRead⟩ := gives_ofText h
  exact writable_of_readNumber negative hRead

theorem gives_valueWithin {fuel : List Char} {value : Json} (h : (valueWithin fuel).Gives value) :
    value.Everywhere fun value => Writable value ∧ Ordered value := by
  induction fuel generalizing value with
  | nil => exact absurd h not_gives_throw
  | cons c fuel ih =>
    rw [valueWithin] at h
    obtain ⟨_, -, h⟩ := gives_bind h
    split at h
    · exact absurd h not_gives_throw
    · iterate 3
        split at h
        · obtain ⟨-, -, h⟩ := gives_bind h
          obtain ⟨-, -, h⟩ := gives_bind h
          obtain rfl := gives_pure h
          exact fun inner hInner => by cases hInner; exact ⟨trivial, trivial⟩
      split at h
      · obtain ⟨-, -, h⟩ := gives_bind h
        obtain ⟨number, hNumber, h⟩ := gives_bind h
        obtain rfl := gives_pure h
        exact fun inner hInner => by cases hInner; exact ⟨writable_of_gives hNumber, trivial⟩
      split at h
      · obtain ⟨number, hNumber, h⟩ := gives_bind h
        obtain rfl := gives_pure h
        exact fun inner hInner => by cases hInner; exact ⟨writable_of_gives hNumber, trivial⟩
      split at h
      · obtain ⟨-, -, h⟩ := gives_bind h
        obtain ⟨_, -, h⟩ := gives_bind h
        obtain rfl := gives_pure h
        exact fun inner hInner => by cases hInner; exact ⟨trivial, trivial⟩
      split at h
      · obtain ⟨elements, hElements, h⟩ := gives_bind h
        obtain ⟨-, -, h⟩ := gives_bind h
        obtain rfl := gives_pure h
        obtain ⟨-, -, hElements⟩ := gives_bind (gives_nested hElements)
        exact everywhere_array ⟨trivial, trivial⟩ fun element hElement => ih (gives_many hElements element hElement)
      split at h
      · obtain ⟨members, hMembers, h⟩ := gives_bind h
        obtain ⟨-, -, h⟩ := gives_bind h
        obtain rfl := gives_pure h
        obtain ⟨-, -, hMembers⟩ := gives_bind (gives_nested hMembers)
        exact gives_members ih hMembers
      · exact absurd h not_gives_throw

theorem gives_value {value : Json} (h : Reader.value.Gives value) :
    value.Everywhere fun value => Writable value ∧ Ordered value := by
  obtain ⟨_, -, h⟩ := gives_bind h
  exact gives_valueWithin h

end Reader

/-! ## Records -/

namespace Record

open Reader (Gives gives_bind gives_pure gives_fold gives_nested gives_ofExcept not_gives_throw not_gives_mismatch)

/-- Whether each value of a tuple is given by the reader of its member, or is the one that stands for its absence. -/
def Given {τ : Type} : Record τ → τ → Prop
  | done, _ => True
  | member _ value absent rest, (x, others) => (value.Gives x ∨ absent = some x) ∧ rest.Given others

/-- Whether each value that has been read so far is given by the reader of its member. -/
def SlotsGiven {τ : Type} : (record : Record τ) → record.Slots → Prop
  | done, _ => True
  | member (α := α) _ value _ rest, slots =>
    let (slot, others) : Option α × rest.Slots := slots
    (∀ x ∈ slot, value.Gives x) ∧ rest.SlotsGiven others

variable {τ : Type} {record : Record τ}

/-- What a member gives that must not be absent. -/
theorem gives_of_required {α : Type} {value : Reader α} {x : α} (h : value.Gives x ∨ none = some x) :
    value.Gives x := by
  rcases h with h | hAbsent
  · exact h
  · cases hAbsent

theorem slotsGiven_noSlots : record.SlotsGiven record.noSlots := by
  induction record with
  | done => trivial
  | member name value absent rest ih => exact ⟨fun x hx => (by cases hx), ih⟩

theorem slotsGiven_readMember {slots slots' : record.Slots} {key : String} (hSlots : record.SlotsGiven slots)
    (h : (record.readMember slots key).Gives slots') : record.SlotsGiven slots' := by
  induction record with
  | done => trivial
  | member name value absent rest ih =>
    obtain ⟨slot, others⟩ := slots
    obtain ⟨hSlot, hOthers⟩ := hSlots
    by_cases hKey : key = name
    · subst hKey
      cases slot with
      | none =>
        rw [readMember_none] at h
        obtain ⟨-, -, h⟩ := gives_bind h
        obtain ⟨x, hx, h⟩ := gives_bind h
        obtain rfl := gives_pure h
        exact ⟨fun y hy => by cases hy; exact hx, hOthers⟩
      | some x =>
        rw [readMember_some] at h
        obtain ⟨_, h, -⟩ := gives_bind h
        exact absurd h not_gives_throw
    · rw [readMember_of_ne name value absent rest others hKey slot] at h
      obtain ⟨others', hOthers', h⟩ := gives_bind h
      obtain rfl := gives_pure h
      exact ⟨hSlot, ih hOthers hOthers'⟩

theorem given_of_finish {slots : record.Slots} {x : τ} (hSlots : record.SlotsGiven slots)
    (h : record.finish slots = .ok x) : record.Given x := by
  induction record with
  | done => trivial
  | member name value absent rest ih =>
    obtain ⟨slot, others⟩ := slots
    obtain ⟨hSlot, hOthers⟩ := hSlots
    rw [finish] at h
    cases hValue : slot.or absent with
    | none =>
      simp only [hValue] at h
      cases h
    | some y =>
      simp only [hValue] at h
      cases hFinish : rest.finish others with
      | error error =>
        rw [hFinish] at h
        cases h
      | ok values =>
        rw [hFinish] at h
        cases h
        refine ⟨?_, ih hOthers hFinish⟩
        rcases Option.or_eq_some_iff.mp hValue with hSome | ⟨-, hAbsent⟩
        · exact .inl (hSlot y hSome)
        · exact .inr hAbsent

theorem given_of_readElements {expected : String} {index : Nat} {x : τ}
    (h : (record.readElements expected index).Gives x) : record.Given x := by
  induction record generalizing index with
  | done => trivial
  | member name value absent rest ih =>
    rw [readElements] at h
    obtain ⟨_, -, h⟩ := gives_bind h
    split at h
    · obtain ⟨y, hy, h⟩ := gives_bind h
      obtain ⟨others, hOthers, h⟩ := gives_bind h
      obtain rfl := gives_pure h
      exact ⟨.inl hy, ih hOthers⟩
    · exact absurd h not_gives_throw

theorem given_of_read {name : String} {x : τ} (h : (record.read name).Gives x) : record.Given x := by
  unfold read at h
  obtain ⟨_, -, h⟩ := gives_bind h
  split at h
  · obtain ⟨result, hResult, h⟩ := gives_bind h
    obtain ⟨-, -, h⟩ := gives_bind h
    obtain rfl := gives_pure h
    obtain ⟨-, -, hResult⟩ := gives_bind (gives_nested hResult)
    exact given_of_readElements hResult
  · obtain ⟨slots, hSlots, h⟩ := gives_bind h
    obtain ⟨result, hResult, h⟩ := gives_bind h
    obtain ⟨-, -, h⟩ := gives_bind h
    obtain rfl := gives_pure h
    obtain ⟨-, -, hSlots⟩ := gives_bind (gives_nested hSlots)
    have hStep (slots : record.Slots) (key : String) (slots' : record.Slots) (hGiven : record.SlotsGiven slots)
        (hRead : (record.readMember slots key).Gives slots') : record.SlotsGiven slots' :=
      slotsGiven_readMember hGiven hRead
    -- Members come in any order, so the invariant is about the slots and not about the members read so far.
    have hGiven := gives_fold record.SlotsGiven hStep slotsGiven_noSlots hSlots
    exact given_of_finish hGiven (gives_ofExcept hResult)
  · exact absurd h not_gives_mismatch

end Record

end Listfile.Json
