import Listfile.Json.Reader
/-! # Reading records

A record is a list of named members, each with the reader of its value, and gives a tuple of their values. It
is read from an object, in any order and with any further members, which are passed over; or from a list of
exactly its members, in order. A member may be absent from an object if it has a value for that case.
-/
namespace Listfile.Json
set_option autoImplicit false

/-- The members of a record whose values form a tuple of type `τ`. -/
inductive Record : Type → Type 1 where
  | done : Record Unit
  | member {α τ : Type} (name : String) (value : Reader α) (absent : Option α) (rest : Record τ) : Record (α × τ)

namespace Record

def length {τ : Type} : Record τ → Nat
  | done => 0
  | member _ _ _ rest => rest.length + 1

def Slots {τ : Type} : Record τ → Type
  | done => Unit
  | member (α := α) _ _ _ rest => Option α × rest.Slots

def noSlots {τ : Type} : (record : Record τ) → record.Slots
  | done => ()
  | member _ _ _ rest => (none, rest.noSlots)

def readMember {τ : Type} : (record : Record τ) → record.Slots → String → Reader record.Slots
  | done, slots, _ => do
    Reader.colon
    Reader.skip
    return slots
  | member (α := α) name value _ rest, slots, key =>
    let (slot, others) : Option α × rest.Slots := slots
    if key = name then do
      if slot.isSome then throw (.repeatedMember name)
      Reader.colon
      return (some (← value), others)
    else do return (slot, ← rest.readMember others key)

/-- The tuple of what was read, or the first member that is missing. -/
def finish {τ : Type} : (record : Record τ) → record.Slots → Except ReadError τ
  | done, _ => .ok ()
  | member (α := α) name _ absent rest, slots =>
    let (slot, others) : Option α × rest.Slots := slots
    match slot.or absent with
    | none => .error (.missingMember name)
    | some x => (rest.finish others).map (x, ·)

/-- Reads the members as the elements of a list, of which `index` have been read. -/
def readElements {τ : Type} (expected : String) : (record : Record τ) → (index : Nat) → Reader τ
  | done, _ => return ()
  | member _ value _ rest, index => do
    if ← Reader.hasElement (index = 0) then
      let x ← value
      return (x, ← rest.readElements expected (index + 1))
    else throw (.wrongLength index expected)

/-- Reads a record, which messages call by the given name. -/
def read {τ : Type} (name : String) (record : Record τ) : Reader τ := do
  match ← Reader.peek with
  | some '[' =>
    let count := if record.length = 1 then "1 element" else toString record.length ++ " elements"
    let result ← Reader.nested do
      Reader.take
      record.readElements ("struct " ++ name ++ " with " ++ count) 0
    Reader.endList
    return result
  | some '{' =>
    let slots ← Reader.nested do
      Reader.take
      Reader.fold record.readMember record.noSlots
    let result ← ofExcept (record.finish slots)
    Reader.endObject
    return result
  | _ => Reader.mismatch ("struct " ++ name)

end Record

end Listfile.Json
