import Mathlib.Data.Finset.Card

/-!
This module contains the recursive lock as an invariant: it is held by the guards of one thread, as many
times as there are guards.
-/

structure HeldBy {ι κ : Type} (thread : κ → ι) (owner : Option ι) (depth : Nat) (guards : Finset κ) :
    Prop where
  depth_eq : depth = guards.card
  owner_of_mem (k : κ) : k ∈ guards → owner = some (thread k)
  free_of_zero : depth = 0 → owner = none

namespace HeldBy

variable {ι κ : Type} {thread : κ → ι} {owner : Option ι} {depth : Nat} {guards : Finset κ} {k k' : κ}

theorem empty : HeldBy thread none 0 ∅ where
  depth_eq := rfl
  owner_of_mem _ h := absurd h (Finset.notMem_empty _)
  free_of_zero _ := rfl

theorem exclusive (h : HeldBy thread owner depth guards) (hk : k ∈ guards) (hk' : k' ∈ guards) :
    thread k = thread k' := by
  have hthread := (h.owner_of_mem k hk).symm.trans (h.owner_of_mem k' hk')
  exact Option.some.inj hthread

theorem depth_pos (h : HeldBy thread owner depth guards) (hk : k ∈ guards) : 0 < depth := by
  rw [h.depth_eq]
  exact Finset.card_pos.mpr ⟨k, hk⟩

theorem exists_guard {t : ι} (h : HeldBy thread owner depth guards) (howner : owner = some t) :
    ∃ k ∈ guards, thread k = t := by
  have hpos : 0 < guards.card := by
    rw [← h.depth_eq, Nat.pos_iff_ne_zero]
    intro hzero
    rw [h.free_of_zero hzero] at howner
    cases howner
  obtain ⟨k, hk⟩ := Finset.card_pos.mp hpos
  exact ⟨k, hk, Option.some.inj ((h.owner_of_mem k hk).symm.trans howner)⟩

variable [DecidableEq κ]

theorem acquire (h : HeldBy thread owner depth guards) (hk : k ∉ guards)
    (howner : ∀ t, owner = some t → t = thread k) :
    HeldBy thread (some (thread k)) (depth + 1) (insert k guards) where
  depth_eq := by rw [Finset.card_insert_of_notMem hk, h.depth_eq]
  owner_of_mem k' hk' := by
    obtain rfl | hk' := Finset.mem_insert.mp hk'
    . rfl
    . rw [howner _ (h.owner_of_mem k' hk')]
  free_of_zero hzero := absurd hzero (Nat.succ_ne_zero depth)

theorem release (h : HeldBy thread owner depth guards) (hk : k ∈ guards) :
    HeldBy thread (if depth = 1 then none else owner) (depth - 1) (guards.erase k) := by
  have hcard : depth - 1 = (guards.erase k).card := by rw [Finset.card_erase_of_mem hk, h.depth_eq]
  have hpos := h.depth_pos hk
  constructor
  . exact hcard
  . intro k' hk'
    have hne : depth ≠ 1 := by
      intro hone
      rw [hone] at hcard
      have hempty := Finset.card_eq_zero.mp hcard.symm
      rw [hempty] at hk'
      exact Finset.notMem_empty k' hk'
    rw [if_neg hne]
    exact h.owner_of_mem k' (Finset.mem_of_mem_erase hk')
  . intro hzero
    rw [if_pos (by omega)]

end HeldBy
