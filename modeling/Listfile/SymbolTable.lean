/-! # Symbol tables

A symbol table maps names to values and remembers the order in which names were first defined. Defining a
name again replaces its value and keeps its place.
-/
namespace Listfile
set_option autoImplicit false

/-- Sets the value of a name in a list of definitions: in its place if it is there, at the end otherwise. The value that
it had is given back. -/
def exchangeEntry (name value : String) : List (String × String) → Option String × List (String × String)
  | [] => (none, [(name, value)])
  | (other, old) :: rest =>
    if other = name then (some old, (name, value) :: rest)
    else
      let (previous, entries) := exchangeEntry name value rest
      (previous, (other, old) :: entries)

def setEntry (name value : String) (entries : List (String × String)) : List (String × String) :=
  (exchangeEntry name value entries).2

theorem setEntry_cons (name value other old : String) (rest : List (String × String)) :
    setEntry name value ((other, old) :: rest) =
      if other = name then (name, value) :: rest else (other, old) :: setEntry name value rest := by
  rw [setEntry, exchangeEntry]
  split <;> rfl

theorem names_setEntry (name value : String) (entries : List (String × String)) :
    (setEntry name value entries).map (·.1) =
      if name ∈ entries.map (·.1) then entries.map (·.1) else entries.map (·.1) ++ [name] := by
  induction entries with
  | nil => rfl
  | cons entry rest ih =>
    obtain ⟨other, old⟩ := entry
    rw [setEntry_cons]
    by_cases h : other = name
    · simp [h]
    · have h' : name ≠ other := fun e => h e.symm
      simp only [h, if_false, List.map_cons, ih, List.mem_cons, h', false_or]
      split <;> simp

/-- Names with their values, in the order in which they were first defined. -/
structure SymbolTable where
  entries : List (String × String)
  names_nodup : (entries.map (·.1)).Nodup
deriving DecidableEq

namespace SymbolTable

def empty : SymbolTable := ⟨[], List.nodup_nil⟩

instance : Inhabited SymbolTable := ⟨empty⟩

def lookup? (table : SymbolTable) (name : String) : Option String := table.entries.lookup name

def contains (table : SymbolTable) (name : String) : Bool := (table.lookup? name).isSome

def size (table : SymbolTable) : Nat := table.entries.length

/-- Gives a name a value, and gives back the value that it had. -/
def exchange (table : SymbolTable) (name value : String) : Option String × SymbolTable :=
  ((exchangeEntry name value table.entries).1, {
    entries := setEntry name value table.entries
    names_nodup := by
      rw [names_setEntry]
      split
      · exact table.names_nodup
      · rename_i hNew
        exact List.nodup_append.mpr
          ⟨table.names_nodup, by simp, fun _ hMem _ hName => by
            rw [List.mem_singleton.mp hName]
            exact fun e => hNew (e ▸ hMem)⟩ })

/-- The table in which a name has the given value. -/
def define (table : SymbolTable) (name value : String) : SymbolTable := (table.exchange name value).2

/-- The table that results from definitions made one after the other. -/
def ofList (definitions : List (String × String)) : SymbolTable :=
  definitions.foldl (fun table (name, value) => table.define name value) empty

/-- Whether two tables give the same value to every name, whatever the order of their names. -/
def agrees (a b : SymbolTable) : Bool :=
  a.size == b.size && a.entries.all fun (name, value) => b.lookup? name == some value

end SymbolTable

end Listfile
