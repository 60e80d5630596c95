import Listfile.SymbolTable
/-! # Symbol tables after a history of definitions

What a table gives for a name is settled by the last definition of the name, and by the table before if there is
none. A table is settled by its names, in their order, and what it gives for them, so that the definitions of a table
may be made again without a change.
-/
namespace Listfile.SymbolTable
set_option autoImplicit false

/-- The first entry of a list decides if it is of the name, and the others do otherwise. -/
theorem lookup_cons (first name value : String) (rest : List (String × String)) :
    ((first, value) :: rest).lookup name = if name = first then some value else rest.lookup name := by
  by_cases h : name = first
  · subst h
    rw [List.lookup_cons_self, if_pos rfl]
  · rw [List.lookup_cons, beq_eq_false_iff_ne.mpr h, if_neg h]

theorem lookup_setEntry (name value other : String) (entries : List (String × String)) :
    (setEntry name value entries).lookup other = if other = name then some value else entries.lookup other := by
  induction entries with
  | nil => exact lookup_cons name other value []
  | cons entry rest ih =>
    obtain ⟨first, old⟩ := entry
    rw [setEntry_cons]
    by_cases hFirst : first = name
    · subst hFirst
      rw [if_pos rfl, lookup_cons, lookup_cons]
      split <;> rfl
    · rw [if_neg hFirst, lookup_cons, lookup_cons, ih]
      by_cases h : other = first
      · rw [if_pos h, if_pos h, if_neg (h ▸ hFirst)]
      · rw [if_neg h, if_neg h]

theorem lookup?_define (table : SymbolTable) (name value other : String) :
    (table.define name value).lookup? other = if other = name then some value else table.lookup? other :=
  lookup_setEntry name value other table.entries

/-- What a definition gives back is the value that the name had just before it. -/
theorem exchangeEntry_fst (name value : String) (entries : List (String × String)) :
    (exchangeEntry name value entries).1 = entries.lookup name := by
  induction entries with
  | nil => rfl
  | cons entry rest ih =>
    obtain ⟨first, old⟩ := entry
    rw [exchangeEntry, lookup_cons]
    by_cases h : name = first
    · rw [if_pos h, if_pos h.symm]
    · rw [if_neg h, if_neg (Ne.symm h)]
      exact ih

@[simp]
theorem exchange_eq (table : SymbolTable) (name value : String) :
    table.exchange name value = (table.lookup? name, table.define name value) :=
  Prod.ext (exchangeEntry_fst name value table.entries) rfl

def defineAll (table : SymbolTable) (definitions : List (String × String)) : SymbolTable :=
  definitions.foldl (fun table (name, value) => table.define name value) table

theorem defineAll_cons (table : SymbolTable) (first : String × String) (rest : List (String × String)) :
    table.defineAll (first :: rest) = (table.define first.1 first.2).defineAll rest := rfl

theorem defineAll_append (table : SymbolTable) (before later : List (String × String)) :
    table.defineAll (before ++ later) = (table.defineAll before).defineAll later := List.foldl_append

theorem ofList_append (definitions more : List (String × String)) :
    ofList (definitions ++ more) = (ofList definitions).defineAll more := List.foldl_append

theorem lookup?_defineAll (table : SymbolTable) (definitions : List (String × String)) (name : String) :
    (table.defineAll definitions).lookup? name = (definitions.reverse.lookup name).or (table.lookup? name) := by
  induction definitions generalizing table with
  | nil => rfl
  | cons definition rest ih =>
    obtain ⟨first, value⟩ := definition
    rw [defineAll_cons, ih, lookup?_define, List.reverse_cons, List.lookup_append, lookup_cons, Option.or_assoc]
    split <;> rfl

/-! ## Agreement -/

/-- Whether two tables give the same to every name of some. -/
def AgreeOn (relevant : String → Prop) (a b : SymbolTable) : Prop :=
  ∀ name, relevant name → a.lookup? name = b.lookup? name

theorem AgreeOn.define {relevant : String → Prop} {a b : SymbolTable} (h : AgreeOn relevant a b) (name value : String) :
    AgreeOn relevant (a.define name value) (b.define name value) := by
  intro other hRelevant
  rw [lookup?_define, lookup?_define, h other hRelevant]

theorem AgreeOn.defineAll {relevant : String → Prop} {a b : SymbolTable} (h : AgreeOn relevant a b)
    (definitions : List (String × String)) : AgreeOn relevant (a.defineAll definitions) (b.defineAll definitions) := by
  induction definitions generalizing a b with
  | nil => exact h
  | cons definition rest ih => exact ih (h.define definition.1 definition.2)

/-- What a name had before makes no difference once it is defined. -/
theorem agreeOn_defined (a b : SymbolTable) (definitions : List (String × String)) :
    AgreeOn (· ∈ definitions.map Prod.fst) (a.defineAll definitions) (b.defineAll definitions) := by
  induction definitions generalizing a b with
  | nil => exact fun name hName => by cases hName
  | cons definition rest ih =>
    obtain ⟨first, value⟩ := definition
    have hFirst : AgreeOn (· = first) (a.define first value) (b.define first value) := by
      intro name hName
      rw [lookup?_define, lookup?_define, if_pos hName, if_pos hName]
    intro name hName
    rcases List.mem_cons.mp hName with hName | hName
    · exact hFirst.defineAll rest name hName
    · exact ih _ _ name hName

/-- The order of definitions of distinct names makes no difference. -/
theorem agreeOn_of_perm {definitions definitions' : List (String × String)} (h : definitions.Perm definitions')
    (hNames : (definitions.map Prod.fst).Nodup) (relevant : String → Prop) (table : SymbolTable) :
    AgreeOn relevant (table.defineAll definitions) (table.defineAll definitions') := by
  induction h generalizing table with
  | nil => exact fun _ _ => rfl
  | cons definition _ ih => exact ih (List.nodup_cons.mp hNames).2 _
  | swap first second rest =>
    have hNe : second.1 ≠ first.1 := fun hEq => (List.nodup_cons.mp hNames).1 (by simp [hEq])
    have hTwo : AgreeOn relevant ((table.define second.1 second.2).define first.1 first.2)
        ((table.define first.1 first.2).define second.1 second.2) := by
      intro name _
      simp only [lookup?_define]
      split
      · rename_i hFirst
        rw [if_neg (hFirst ▸ hNe.symm)]
      · rfl
    exact hTwo.defineAll rest
  | trans hFirst _ ihFirst ihSecond =>
    intro name hName
    exact (ihFirst hNames table name hName).trans (ihSecond ((hFirst.map _).nodup_iff.mp hNames) table name hName)

/-- Definitions of other names make no difference. -/
theorem agreeOn_others {relevant : String → Prop} {definitions : List (String × String)}
    (h : ∀ definition ∈ definitions, ¬relevant definition.1) (table : SymbolTable) :
    AgreeOn relevant (table.defineAll definitions) table := by
  induction definitions generalizing table with
  | nil => exact fun _ _ => rfl
  | cons definition rest ih =>
    obtain ⟨hFirst, hRest⟩ := List.forall_mem_cons.mp h
    intro name hName
    have hNe : name ≠ definition.1 := fun hEq => hFirst (hEq ▸ hName)
    calc (table.defineAll (definition :: rest)).lookup? name
        = (table.define definition.1 definition.2).lookup? name := ih hRest _ name hName
      _ = table.lookup? name := by rw [lookup?_define, if_neg hNe]

/-! ## Names -/

def names (table : SymbolTable) : List String := table.entries.map (·.1)

theorem eq_of_lookup_eq {a b : List (String × String)} (ha : (a.map (·.1)).Nodup)
    (hNames : a.map (·.1) = b.map (·.1)) (hLookup : ∀ name, a.lookup name = b.lookup name) : a = b := by
  induction a generalizing b with
  | nil => exact (List.map_eq_nil_iff.mp hNames.symm).symm
  | cons entry rest ih =>
    obtain ⟨name, value⟩ := entry
    obtain ⟨⟨name', value'⟩, rest', rfl, hName, hRest⟩ := List.map_eq_cons_iff.mp hNames.symm
    simp only at hName
    subst hName
    obtain ⟨hFirst, hNodup⟩ := List.nodup_cons.mp ha
    have hValue := hLookup name'
    rw [lookup_cons, lookup_cons, if_pos rfl, if_pos rfl, Option.some.injEq] at hValue
    rw [hValue, ih hNodup hRest.symm fun other => ?_]
    by_cases h : other = name'
    · -- The name of the first entry is not among the others of either list.
      have hNone {entries : List (String × String)} (hNotMem : name' ∉ entries.map (·.1)) :
          entries.lookup name' = none := by
        rw [List.lookup_eq_none_iff]
        rintro ⟨key, _⟩ hMem
        exact bne_iff_ne.mpr fun hEq => hNotMem (List.mem_map.mpr ⟨_, hMem, hEq.symm⟩)
      rw [h, hNone hFirst, hNone (by rw [hRest]; exact hFirst)]
    · simpa only [lookup_cons, if_neg h] using hLookup other

/-- A table is settled by its names and what it gives for them. -/
theorem eq_of_lookup?_eq {a b : SymbolTable} (hNames : a.names = b.names)
    (hLookup : ∀ name, a.lookup? name = b.lookup? name) : a = b := by
  obtain ⟨entries, hNodup⟩ := a
  obtain ⟨entries', hNodup'⟩ := b
  cases eq_of_lookup_eq hNodup hNames hLookup
  rfl

theorem names_define (table : SymbolTable) (name value : String) :
    (table.define name value).names = if name ∈ table.names then table.names else table.names ++ [name] :=
  names_setEntry name value table.entries

theorem mem_names_defineAll (table : SymbolTable) (definitions : List (String × String)) (name : String) :
    name ∈ (table.defineAll definitions).names ↔ name ∈ table.names ∨ name ∈ definitions.map (·.1) := by
  induction definitions generalizing table with
  | nil => simp [defineAll]
  | cons definition rest ih =>
    rw [defineAll_cons, ih, names_define, List.map_cons, List.mem_cons]
    split
    · rename_i hMem
      constructor
      · exact Or.imp_right .inr
      · rintro (h | rfl | h)
        · exact .inl h
        · exact .inl hMem
        · exact .inr h
    · rw [List.mem_append, List.mem_singleton, or_assoc]

/-- Definitions of names that a table has keep their order. -/
theorem names_defineAll {table : SymbolTable} {definitions : List (String × String)}
    (h : ∀ definition ∈ definitions, definition.1 ∈ table.names) :
    (table.defineAll definitions).names = table.names := by
  induction definitions generalizing table with
  | nil => rfl
  | cons definition rest ih =>
    obtain ⟨hFirst, hRest⟩ := List.forall_mem_cons.mp h
    have hNames : (table.define definition.1 definition.2).names = table.names := by
      rw [names_define, if_pos hFirst]
    rw [defineAll_cons, ih (by rwa [hNames]), hNames]

/-- To make the same definitions once more changes neither a value nor the order. -/
theorem defineAll_defineAll (table : SymbolTable) (definitions : List (String × String)) :
    (table.defineAll definitions).defineAll definitions = table.defineAll definitions := by
  refine eq_of_lookup?_eq (names_defineAll fun definition hMem => ?_) fun name => ?_
  · exact (mem_names_defineAll table definitions _).mpr (.inr (List.mem_map_of_mem hMem))
  · rw [lookup?_defineAll, lookup?_defineAll, ← Option.or_assoc, Option.or_self]

end Listfile.SymbolTable
