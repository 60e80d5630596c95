import Listfile.Json.Value
/-! # The values inside a value

A property holds everywhere in a value if it holds of the value itself and of all that it contains. Objects are ordered
if their members are sorted by name, with one member a name; this is what inserting members keeps.
-/
namespace Listfile.Json
set_option autoImplicit false

/-- `value.Contains inner` says that the one is the other or somewhere inside it. -/
inductive Contains : Json → Json → Prop
  | self (value : Json) : Contains value value
  | element {elements : List Json} {element inner : Json} (hMem : element ∈ elements) (h : Contains element inner) :
    Contains (array elements) inner
  | member {members : List (String × Json)} {name : String} {value inner : Json} (hMem : (name, value) ∈ members)
    (h : Contains value inner) : Contains (object members) inner

def Everywhere (property : Json → Prop) (value : Json) : Prop := ∀ inner, value.Contains inner → property inner

section everywhere

variable {property : Json → Prop}

theorem Everywhere.self {value : Json} (h : value.Everywhere property) : property value := h value (.self value)

theorem Everywhere.element {elements : List Json} (h : (array elements).Everywhere property) {element : Json}
    (hMem : element ∈ elements) : element.Everywhere property := fun _ hInner => h _ (.element hMem hInner)

theorem Everywhere.member {members : List (String × Json)} (h : (object members).Everywhere property)
    {member : String × Json} (hMem : member ∈ members) : member.2.Everywhere property :=
  fun _ hInner => h _ (.member hMem hInner)

theorem everywhere_array {elements : List Json} (h : property (array elements))
    (hElements : ∀ element ∈ elements, element.Everywhere property) : (array elements).Everywhere property := by
  intro inner hInner
  cases hInner with
  | self => exact h
  | element hMem hInner => exact hElements _ hMem inner hInner

theorem everywhere_object {members : List (String × Json)} (h : property (object members))
    (hMembers : ∀ member ∈ members, member.2.Everywhere property) : (object members).Everywhere property := by
  intro inner hInner
  cases hInner with
  | self => exact h
  | member hMem hInner => exact hMembers _ hMem inner hInner

end everywhere

/-! ## Integers only -/

/-- Whether a value is not a number other than an integer from `-2 ^ 63` to `2 ^ 64 - 1`. -/
def Plain : Json → Prop
  | number (.integer value) => -0x8000000000000000 ≤ value ∧ value < 0x10000000000000000
  | number (.double _) => False
  | _ => True

/-! ## Sorted members -/

def Sorted (members : List (String × Json)) : Prop := members.Pairwise fun a b => a.1 < b.1

theorem sorted_iff {members : List (String × Json)} :
    Sorted members ↔ (members.map Prod.fst).Pairwise (· < ·) := List.pairwise_map.symm

/-- Whether a value is not an object with members out of order. -/
def Ordered : Json → Prop
  | object members => Sorted members
  | _ => True

theorem mem_insertMember {name : String} {value : Json} {members : List (String × Json)} {member : String × Json}
    (h : member ∈ insertMember name value members) : member = (name, value) ∨ member ∈ members := by
  induction members with
  | nil => exact .inl (List.mem_singleton.mp h)
  | cons first rest ih =>
    obtain ⟨other, old⟩ := first
    unfold insertMember at h
    split at h
    · exact List.mem_cons.mp h
    · split at h
      · rcases List.mem_cons.mp h with h | h
        · exact .inl h
        · exact .inr (List.mem_cons_of_mem _ h)
      · rcases List.mem_cons.mp h with h | h
        · exact .inr (List.mem_cons.mpr (.inl h))
        · exact (ih h).imp_right (List.mem_cons_of_mem _)

theorem lt_of_not_lt {a b : String} (h : ¬a < b) (hNe : a ≠ b) : b < a := Std.lt_of_le_of_ne h hNe.symm

theorem sorted_insertMember (name : String) (value : Json) {members : List (String × Json)} (h : Sorted members) :
    Sorted (insertMember name value members) := by
  induction members with
  | nil => exact List.pairwise_singleton _ _
  | cons first rest ih =>
    obtain ⟨other, old⟩ := first
    obtain ⟨hFirst, hRest⟩ := List.pairwise_cons.mp h
    unfold insertMember
    split
    · rename_i hLt
      refine List.pairwise_cons.mpr ⟨fun member hMember => ?_, h⟩
      rcases List.mem_cons.mp hMember with rfl | hMember
      · exact hLt
      · exact String.lt_trans hLt (hFirst member hMember)
    · split
      · rename_i hEq
        subst hEq
        exact List.pairwise_cons.mpr ⟨hFirst, hRest⟩
      · rename_i hLt hNe
        refine List.pairwise_cons.mpr ⟨fun member hMember => ?_, ih hRest⟩
        rcases mem_insertMember hMember with rfl | hMember
        · exact lt_of_not_lt hLt hNe
        · exact hFirst member hMember

/-- A member whose name comes after all others is put at the end. -/
theorem insertMember_last {name : String} (value : Json) {members : List (String × Json)}
    (h : ∀ member ∈ members, member.1 < name) : insertMember name value members = members ++ [(name, value)] := by
  induction members with
  | nil => rfl
  | cons first rest ih =>
    obtain ⟨hFirst, hRest⟩ := List.forall_mem_cons.mp h
    obtain ⟨other, old⟩ := first
    have hNe : name ≠ other := fun hEq => String.lt_irrefl other (hEq ▸ hFirst)
    rw [insertMember, if_neg (String.lt_asymm hFirst), if_neg hNe, ih hRest, List.cons_append]

end Listfile.Json
