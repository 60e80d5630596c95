import Mathlib.Data.Finset.Card
import Mathlib.Data.List.Induction
import Listfile.Proofs.SymbolTable.History
/-! # The order of a symbol table

A table has its names in the order in which they were first defined, however often and where their values were replaced
since. Two tables are equal if they give the same to every name, and this order may differ. So definitions of distinct
names may be exchanged for equality, and the order still tells which of them came first.
-/
namespace Listfile.SymbolTable
set_option autoImplicit false

/-! ## Entries -/

theorem mem_entries_iff {table : SymbolTable} {name value : String} :
    (name, value) ∈ table.entries ↔ table.lookup? name = some value := by
  constructor
  · intro h
    obtain ⟨before, after, hEntries⟩ := List.append_of_mem h
    refine List.lookup_eq_some_iff.mpr ⟨before, after, hEntries, fun entry hMem => ?_⟩
    have hNodup := table.names_nodup
    rw [hEntries, List.map_append, List.nodup_append] at hNodup
    exact bne_iff_ne.mpr (hNodup.2.2 entry.1 (List.mem_map_of_mem hMem) name List.mem_cons_self).symm
  · intro h
    obtain ⟨before, after, hEntries, -⟩ := List.lookup_eq_some_iff.mp h
    rw [hEntries]
    exact List.mem_append_right before List.mem_cons_self

theorem mem_names_iff {table : SymbolTable} {name : String} :
    name ∈ table.names ↔ (table.lookup? name).isSome := by
  rw [names, List.mem_map, Option.isSome_iff_exists]
  constructor
  · rintro ⟨⟨_, value⟩, hMem, rfl⟩
    exact ⟨value, mem_entries_iff.mp hMem⟩
  · rintro ⟨value, hValue⟩
    exact ⟨(name, value), mem_entries_iff.mpr hValue, rfl⟩

theorem contains_iff {table : SymbolTable} {name : String} : table.contains name ↔ name ∈ table.names :=
  mem_names_iff.symm

theorem nodup_names (table : SymbolTable) : table.names.Nodup := table.names_nodup

theorem length_names (table : SymbolTable) : table.names.length = table.size := List.length_map _

/-! ## Equality -/

theorem agrees_iff_size_and_values {a b : SymbolTable} : a.agrees b ↔
    a.size = b.size ∧ ∀ name value, a.lookup? name = some value → b.lookup? name = some value := by
  simp only [agrees, Bool.and_eq_true, List.all_eq_true, beq_iff_eq, Prod.forall, mem_entries_iff]

theorem agrees_iff {a b : SymbolTable} : a.agrees b ↔ ∀ name, a.lookup? name = b.lookup? name := by
  rw [agrees_iff_size_and_values, ← length_names, ← length_names]
  constructor
  · rintro ⟨hLength, hValues⟩ name
    have hSubset : a.names ⊆ b.names := by
      intro other hOther
      obtain ⟨value, hValue⟩ := Option.isSome_iff_exists.mp (mem_names_iff.mp hOther)
      exact mem_names_iff.mpr (Option.isSome_of_mem (hValues other value hValue))
    -- As many names, all of which the other table has, leave none that only the other one has.
    have hPerm : a.names.Perm b.names := (List.subperm_of_subset a.nodup_names hSubset).perm_of_length_le hLength.ge
    cases hValue : a.lookup? name with
    | some value => exact (hValues name value hValue).symm
    | none =>
      have hNotMem : name ∉ b.names := by
        rw [← hPerm.mem_iff, mem_names_iff, hValue]
        exact Bool.false_ne_true
      rw [mem_names_iff, Bool.not_eq_true, Option.isSome_eq_false_iff, Option.isNone_iff_eq_none] at hNotMem
      exact hNotMem.symm
  · intro h
    have hPerm : a.names.Perm b.names := by
      rw [List.perm_ext_iff_of_nodup a.nodup_names b.nodup_names]
      intro name
      rw [mem_names_iff, mem_names_iff, h]
    exact ⟨hPerm.length_eq, fun name value hValue => (h name).symm.trans hValue⟩

/-! ## Histories -/

section history

variable (table : SymbolTable)

theorem lookup?_of_notMem {definitions : List (String × String)} {name : String}
    (h : name ∉ definitions.map (·.1)) : (table.defineAll definitions).lookup? name = table.lookup? name := by
  have hOthers : AgreeOn (· = name) (table.defineAll definitions) table := by
    refine agreeOn_others (fun definition hMem hEq => h ?_) table
    rw [← hEq]
    exact List.mem_map_of_mem hMem
  exact hOthers name rfl

theorem lookup?_of_last {later : List (String × String)} {name : String} (h : name ∉ later.map (·.1))
    (before : List (String × String)) (value : String) :
    (table.defineAll (before ++ (name, value) :: later)).lookup? name = some value := by
  rw [defineAll_append, defineAll_cons, lookup?_of_notMem _ h, lookup?_define, if_pos rfl]

/-- The names of a table and then those of definitions, with repetitions. -/
def mentioned (definitions : List (String × String)) : List String := table.names ++ definitions.map (·.1)

theorem mem_mentioned {definitions : List (String × String)} {name : String} :
    name ∈ table.mentioned definitions ↔ name ∈ (table.defineAll definitions).names := by
  rw [mentioned, List.mem_append, mem_names_defineAll]

theorem mentioned_concat (definitions : List (String × String)) (last : String × String) :
    table.mentioned (definitions ++ [last]) = table.mentioned definitions ++ [last.1] := by
  rw [mentioned, mentioned, List.map_append, List.append_assoc]
  rfl

theorem names_defineAll_concat (definitions : List (String × String)) (last : String × String) :
    (table.defineAll (definitions ++ [last])).names =
      if last.1 ∈ (table.defineAll definitions).names then (table.defineAll definitions).names
      else (table.defineAll definitions).names ++ [last.1] := by
  rw [defineAll_append]
  exact names_define _ last.1 last.2

/-- The names of a table are in the order in which they are first mentioned. -/
theorem pairwise_names (definitions : List (String × String)) :
    (table.defineAll definitions).names.Pairwise fun a b =>
      (table.mentioned definitions).idxOf a < (table.mentioned definitions).idxOf b := by
  induction definitions using List.reverseRecOn with
  | nil =>
    change table.names.Pairwise _
    rw [mentioned, List.map_nil, List.append_nil, List.pairwise_iff_getElem]
    intro i j hi hj hLt
    rwa [table.nodup_names.idxOf_getElem i hi, table.nodup_names.idxOf_getElem j hj]
  | append_singleton definitions last ih =>
    rw [mentioned_concat, names_defineAll_concat]
    have hEarlier : (table.defineAll definitions).names.Pairwise fun a b =>
        (table.mentioned definitions ++ [last.1]).idxOf a < (table.mentioned definitions ++ [last.1]).idxOf b := by
      refine ih.imp_of_mem fun {a b} ha hb hLt => ?_
      rwa [List.idxOf_append_of_mem (table.mem_mentioned.mpr ha), List.idxOf_append_of_mem (table.mem_mentioned.mpr hb)]
    split
    · exact hEarlier
    · rename_i hNew
      refine List.pairwise_append.mpr ⟨hEarlier, List.pairwise_singleton _ _, fun a ha b hb => ?_⟩
      rw [List.mem_singleton.mp hb, List.idxOf_append_of_mem (table.mem_mentioned.mpr ha),
        List.idxOf_append_of_notMem (mt table.mem_mentioned.mp hNew)]
      exact (List.idxOf_lt_length_of_mem (table.mem_mentioned.mpr ha)).trans_le (Nat.le_add_right _ _)

theorem size_defineAll (definitions : List (String × String)) :
    (table.defineAll definitions).size = (table.mentioned definitions).toFinset.card := by
  have hNames : (table.mentioned definitions).toFinset = (table.defineAll definitions).names.toFinset := by
    ext name
    rw [List.mem_toFinset, List.mem_toFinset, mem_mentioned]
  rw [hNames, List.toFinset_card_of_nodup (nodup_names _), length_names]

theorem agrees_of_perm {definitions definitions' : List (String × String)} (h : definitions.Perm definitions')
    (hNames : (definitions.map (·.1)).Nodup) :
    (table.defineAll definitions).agrees (table.defineAll definitions') :=
  agrees_iff.mpr fun name => agreeOn_of_perm h hNames (fun _ => True) table name trivial

theorem names_define_define {first second : String} (hFirst : first ∉ table.names) (hSecond : second ∉ table.names)
    (hNe : first ≠ second) (value value' : String) :
    ((table.define first value).define second value').names = table.names ++ [first, second] := by
  have hOnce : (table.define first value).names = table.names ++ [first] := by rw [names_define, if_neg hFirst]
  have hNew : second ∉ table.names ++ [first] := by simp [hSecond, hNe.symm]
  rw [names_define, hOnce, if_neg hNew, List.append_assoc]
  rfl

end history

/-- A table after a history of definitions, on top of any table at the start: its names are those that were mentioned,
in the order in which each first was; it gives for a name the value of the last definition, or what it gave at the
start; a name is contained if it has a value; there are as many names as distinct ones were mentioned; and each
definition gives back the value that its name had just before. Tables are equal if they give the same to every name. So
the order of definitions of distinct names is no matter to equality, while the names stand in that order. -/
theorem insertion_ordered (table : SymbolTable) (definitions : List (String × String)) :
    let after := table.defineAll definitions
    let mentioned := table.names ++ definitions.map (·.1)
    (after.names.Nodup ∧ (∀ name, name ∈ after.names ↔ name ∈ mentioned) ∧
      after.names.Pairwise fun a b => mentioned.idxOf a < mentioned.idxOf b) ∧
    ((∀ before name value later, definitions = before ++ (name, value) :: later → name ∉ later.map (·.1) →
        after.lookup? name = some value) ∧
      ∀ name, name ∉ definitions.map (·.1) → after.lookup? name = table.lookup? name) ∧
    (∀ name, (after.contains name ↔ name ∈ after.names) ∧ after.contains name = (after.lookup? name).isSome) ∧
    after.size = mentioned.toFinset.card ∧
    (∀ before name value, (table.defineAll before).exchange name value =
      ((table.defineAll before).lookup? name, table.defineAll (before ++ [(name, value)]))) ∧
    (∀ other, after.agrees other ↔ ∀ name, after.lookup? name = other.lookup? name) ∧
    (∀ definitions', definitions.Perm definitions' → (definitions.map (·.1)).Nodup →
      after.agrees (table.defineAll definitions')) ∧
    (∀ first second value value', first ∉ table.names → second ∉ table.names → first ≠ second →
      (table.defineAll [(first, value), (second, value')]).names = table.names ++ [first, second] ∧
      (table.defineAll [(second, value'), (first, value)]).names = table.names ++ [second, first]) ∧
    ∀ start, table = ofList start → after = ofList (start ++ definitions) := by
  intro after mentioned
  refine ⟨⟨after.nodup_names, fun name => table.mem_mentioned.symm, table.pairwise_names definitions⟩, ⟨?_, ?_⟩,
    fun name => ⟨contains_iff, rfl⟩, table.size_defineAll definitions, ?_, fun other => agrees_iff, ?_, ?_, ?_⟩
  · rintro before name value later hDefinitions hLast
    rw [← table.lookup?_of_last hLast before value, ← hDefinitions]
  · exact fun name hName => table.lookup?_of_notMem hName
  · intro before name value
    rw [exchange_eq, defineAll_append]
    rfl
  · exact fun definitions' hPerm hNames => table.agrees_of_perm hPerm hNames
  · intro first second value value' hFirst hSecond hNe
    exact ⟨table.names_define_define hFirst hSecond hNe value value',
      table.names_define_define hSecond hFirst hNe.symm value' value⟩
  · rintro start rfl
    exact (ofList_append start definitions).symm

/-- A name that is defined three times, of which the last comes after another name. -/
theorem insertion_ordered_of_redefined :
    let table := ofList [("A", "1"), ("B", "2")]
    let definitions := [("C", "3"), ("A", "4"), ("C", "5")]
    let after := table.defineAll definitions
    after.names.Pairwise (fun a b => ["A", "B", "C", "A", "C"].idxOf a < ["A", "B", "C", "A", "C"].idxOf b) ∧
      after.lookup? "C" = some "5" ∧ after.lookup? "B" = table.lookup? "B" ∧ after.size = 3 ∧
      (table.defineAll [("C", "3")]).exchange "A" "4" =
        (some "1", table.defineAll [("C", "3"), ("A", "4")]) := by
  intro table definitions after
  obtain ⟨⟨-, -, hOrder⟩, ⟨hLast, hOther⟩, -, hSize, hExchange, -⟩ := insertion_ordered table definitions
  refine ⟨hOrder, hLast [("C", "3"), ("A", "4")] "C" "5" [] rfl List.not_mem_nil, hOther "B" (by decide), ?_, ?_⟩
  · rw [hSize]
    decide
  · exact hExchange [("C", "3")] "A" "4"

end Listfile.SymbolTable
