import Mathlib.Data.Finset.Basic
import Mathlib.Data.Finset.Lattice.Lemmas

/-!
This module contains a set of resources that two holders have shares of, and the changes of a share that
leave the other one and the rest alone.
-/

structure Shares {α : Type} (all rest p q : Finset α) : Prop where
  mem_iff (a : α) : a ∈ all ↔ a ∈ rest ∨ a ∈ p ∨ a ∈ q
  rest_left (a : α) : a ∈ rest → a ∉ p
  rest_right (a : α) : a ∈ rest → a ∉ q
  left_right (a : α) : a ∈ p → a ∉ q

namespace Shares

variable {α : Type} {all rest p q p' : Finset α} {a : α}

theorem symm (h : Shares all rest p q) : Shares all rest q p where
  mem_iff a := by rw [h.mem_iff, or_comm (a := a ∈ q)]
  rest_left := h.rest_right
  rest_right := h.rest_left
  left_right a hq hp := h.left_right a hp hq

theorem left_mem (h : Shares all rest p q) (ha : a ∈ p) : a ∈ all :=
  (h.mem_iff a).mpr (.inr (.inl ha))

variable [DecidableEq α]

/--
A share changes from `p` to `p'`: what is new in it comes from outside.
-/
structure Change (all p all' p' : Finset α) : Prop where
  all_eq : all' = (all \ p) ∪ p'
  new_notMem (a : α) : a ∈ p' → a ∉ p → a ∉ all

theorem change (h : Shares all rest p q) {all' : Finset α} (hchange : Change all p all' p') :
    Shares all' rest p' q := by
  have hnew : ∀ a ∈ p', a ∉ rest ∧ a ∉ q := by
    intro a ha
    by_cases hp : a ∈ p
    . exact ⟨fun hrest => h.rest_left a hrest hp, h.left_right a hp⟩
    . have hall := hchange.new_notMem a ha hp
      rw [h.mem_iff] at hall
      tauto
  constructor
  . intro a
    rw [hchange.all_eq, Finset.mem_union, Finset.mem_sdiff, h.mem_iff]
    have hrest := h.rest_left a
    have hq := h.left_right a
    tauto
  . intro a hrest ha
    exact (hnew a ha).1 hrest
  . exact h.rest_right
  . intro a ha
    exact (hnew a ha).2

namespace Change

theorem refl (hsub : p ⊆ all) : Change all p all p where
  all_eq := (Finset.sdiff_union_of_subset hsub).symm
  new_notMem _ ha hnot := absurd ha hnot

theorem insert (hsub : p ⊆ all) (ha : a ∉ all) : Change all p (insert a all) (insert a p) where
  all_eq := by
    rw [Finset.union_insert, Finset.sdiff_union_of_subset hsub]
  new_notMem b hb hnot := by
    obtain rfl | hb := Finset.mem_insert.mp hb
    . exact ha
    . exact absurd hb hnot

theorem erase (hsub : p ⊆ all) (ha : a ∈ p) : Change all p (all.erase a) (p.erase a) where
  all_eq := by
    ext b
    have hb := @hsub b
    simp only [Finset.mem_erase, Finset.mem_union, Finset.mem_sdiff]
    by_cases hba : b = a
    . subst hba
      simp [ha]
    . simp only [ne_eq, hba, not_false_eq_true, true_and]
      tauto
  new_notMem b hb hnot := absurd (Finset.mem_of_mem_erase hb) hnot

end Change
end Shares
