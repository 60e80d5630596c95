import Mathlib.Data.List.Forall2
/-! # Lists that are related item by item

What is known of the items of related lists, by membership: each has a counterpart in the other list, and it is enough
to know a relation of the items that are there.
-/
namespace Listfile
set_option autoImplicit false

variable {α β : Type} {related related' : α → β → Prop} {as : List α} {bs : List β}

theorem exists_of_forall₂ (h : List.Forall₂ related as bs) {a : α} (ha : a ∈ as) : ∃ b ∈ bs, related a b := by
  induction h with
  | nil => cases ha
  | cons hFirst _ ih =>
    rcases List.mem_cons.mp ha with rfl | ha
    · exact ⟨_, List.mem_cons_self, hFirst⟩
    · obtain ⟨b, hb, hRelated⟩ := ih ha
      exact ⟨b, List.mem_cons_of_mem _ hb, hRelated⟩

theorem exists_forall₂ {property : β → Prop} (h : ∀ a ∈ as, ∃ b, related a b ∧ property b) :
    ∃ bs, List.Forall₂ related as bs ∧ ∀ b ∈ bs, property b := by
  induction as with
  | nil => exact ⟨[], .nil, List.forall_mem_nil _⟩
  | cons a rest ih =>
    obtain ⟨⟨b, hRelated, hb⟩, hRest⟩ := List.forall_mem_cons.mp h
    obtain ⟨bs, hOthers, hbs⟩ := ih hRest
    exact ⟨b :: bs, .cons hRelated hOthers, List.forall_mem_cons.mpr ⟨hb, hbs⟩⟩

theorem forall₂_imp_of_mem (h : List.Forall₂ related as bs)
    (hImp : ∀ a ∈ as, ∀ b ∈ bs, related a b → related' a b) : List.Forall₂ related' as bs := by
  rw [List.forall₂_iff_get]
  refine ⟨h.length_eq, fun index ha hb => ?_⟩
  exact hImp _ (as.get_mem ⟨index, ha⟩) _ (bs.get_mem ⟨index, hb⟩) (h.get ha hb)

end Listfile
