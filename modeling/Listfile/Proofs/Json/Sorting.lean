import Listfile.Proofs.Json.Numbers
/-! # Values with sorted members

Whatever the order in which the members of an object are written, they are read into one that is sorted by name, and of
two members with one name the last one is kept. A value comes back as it was just if all objects in it are sorted.
-/
namespace Listfile.Json
set_option autoImplicit false

mutual

/-- A value with the members of all its objects in the order of their names. -/
def sorted : Json → Json
  | array elements => array (sortedElements elements)
  | object members => object (sortedMembers [] members)
  | value => value

def sortedElements : List Json → List Json
  | [] => []
  | element :: rest => element.sorted :: sortedElements rest

def sortedMembers (done : List (String × Json)) : List (String × Json) → List (String × Json)
  | [] => done
  | (name, value) :: rest => sortedMembers (insertMember name value.sorted done) rest

end

mutual

theorem sorted_reread (value : Json) (h : value.Everywhere Ordered) : value.reread.sorted = value.reread := by
  match value with
  | null | bool _ | string _ | number _ => rfl
  | array elements => rw [reread, sorted, sortedElements_reread elements fun _ hElement => h.element hElement]
  | object members => rw [reread, sorted, sortedMembers_reread members [] h.self fun _ hMember => h.member hMember]; rfl

theorem sortedElements_reread (elements : List Json) (h : ∀ element ∈ elements, element.Everywhere Ordered) :
    sortedElements (rereadElements elements) = rereadElements elements := by
  match elements with
  | [] => rfl
  | element :: rest =>
    obtain ⟨hFirst, hRest⟩ := List.forall_mem_cons.mp h
    rw [rereadElements, sortedElements, sorted_reread element hFirst, sortedElements_reread rest hRest]

theorem sortedMembers_reread (members done : List (String × Json)) (hSorted : Sorted (done ++ members))
    (h : ∀ member ∈ members, member.2.Everywhere Ordered) :
    sortedMembers done (rereadMembers members) = done ++ rereadMembers members := by
  match members with
  | [] => exact (List.append_nil done).symm
  | (name, value) :: rest =>
    obtain ⟨hFirst, hRest⟩ := List.forall_mem_cons.mp h
    have hValue : value.reread.sorted = value.reread := sorted_reread value hFirst
    have hBefore := (List.pairwise_append.mp hSorted).2.2
    have hLast : insertMember name value.reread done = done ++ [(name, value.reread)] :=
      insertMember_last value.reread fun member hMember => hBefore member hMember _ List.mem_cons_self
    -- Only the names of the members matter for their order.
    have hSorted' : Sorted (done ++ [(name, value.reread)] ++ rest) := by
      rw [sorted_iff] at hSorted ⊢
      simpa using hSorted
    rw [rereadMembers, sortedMembers, hValue, hLast, sortedMembers_reread rest _ hSorted' hRest, List.append_assoc]
    rfl

end

mutual

theorem ordered_sorted (value : Json) : value.sorted.Everywhere Ordered := by
  match value with
  | null | bool _ | string _ | number _ =>
    rintro inner hInner
    cases hInner
    trivial
  | array elements => exact everywhere_array trivial (ordered_sortedElements elements)
  | object members =>
    obtain ⟨hSorted, hMembers⟩ := ordered_sortedMembers members [] List.Pairwise.nil (List.forall_mem_nil _)
    exact everywhere_object hSorted hMembers

theorem ordered_sortedElements (elements : List Json) :
    ∀ element ∈ sortedElements elements, element.Everywhere Ordered := by
  match elements with
  | [] => exact List.forall_mem_nil _
  | element :: rest => exact List.forall_mem_cons.mpr ⟨ordered_sorted element, ordered_sortedElements rest⟩

theorem ordered_sortedMembers (members done : List (String × Json)) (hDone : Sorted done)
    (h : ∀ member ∈ done, member.2.Everywhere Ordered) : Sorted (sortedMembers done members) ∧
      ∀ member ∈ sortedMembers done members, member.2.Everywhere Ordered := by
  match members with
  | [] => exact ⟨hDone, h⟩
  | (name, value) :: rest =>
    refine ordered_sortedMembers rest _ (sorted_insertMember name value.sorted hDone) fun member hMember => ?_
    rcases mem_insertMember hMember with rfl | hMember
    · exact ordered_sorted value
    · exact h member hMember

end

mutual

theorem plain_sorted (value : Json) (h : value.Everywhere Plain) : value.sorted.Everywhere Plain := by
  match value with
  | null | bool _ | string _ | number _ => exact h
  | array elements =>
    exact everywhere_array trivial (plain_sortedElements elements fun _ hElement => h.element hElement)
  | object members =>
    exact everywhere_object trivial
      (plain_sortedMembers members [] (List.forall_mem_nil _) fun _ hMember => h.member hMember)

theorem plain_sortedElements (elements : List Json) (h : ∀ element ∈ elements, element.Everywhere Plain) :
    ∀ element ∈ sortedElements elements, element.Everywhere Plain := by
  match elements with
  | [] => exact List.forall_mem_nil _
  | element :: rest =>
    obtain ⟨hFirst, hRest⟩ := List.forall_mem_cons.mp h
    exact List.forall_mem_cons.mpr ⟨plain_sorted element hFirst, plain_sortedElements rest hRest⟩

theorem plain_sortedMembers (members done : List (String × Json)) (hDone : ∀ member ∈ done, member.2.Everywhere Plain)
    (h : ∀ member ∈ members, member.2.Everywhere Plain) :
    ∀ member ∈ sortedMembers done members, member.2.Everywhere Plain := by
  match members with
  | [] => exact hDone
  | (name, value) :: rest =>
    obtain ⟨hFirst, hRest⟩ := List.forall_mem_cons.mp h
    refine plain_sortedMembers rest _ (fun member hMember => ?_) hRest
    rcases mem_insertMember hMember with rfl | hMember
    · exact plain_sorted value hFirst
    · exact hDone member hMember

end

/-- Where all numbers are integers, sorting changes a value unless all its objects are sorted. -/
theorem sorted_eq_self_iff {value : Json} (h : value.Everywhere Plain) :
    value.sorted = value ↔ value.Everywhere Ordered := by
  constructor
  · intro hSame
    rw [← hSame]
    exact ordered_sorted value
  · intro hOrdered
    have hSorted := sorted_reread value hOrdered
    rwa [reread_of_plain value h] at hSorted

end Listfile.Json
