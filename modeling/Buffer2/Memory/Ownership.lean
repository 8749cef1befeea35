import Mathlib.Logic.Function.Basic

/-!
This module contains objects on a heap, the holders that own them, and the changes of ownership that
keep it exclusive.
-/

/--
`twice` is set once something has been deleted that is not there, or not there any more.
-/
structure Heap (α : Type) where
  live : α → Bool
  twice : Bool

namespace Heap

variable {α : Type} [DecidableEq α]

def create (h : Heap α) (a : α) : Heap α := { h with live := Function.update h.live a true }

def delete (h : Heap α) (p : Option α) : Heap α :=
  match p with
  | none => h
  | some a =>
    { live := Function.update h.live a false
      twice := h.twice || !h.live a }

theorem live_delete (h : Heap α) (p : Option α) (a : α) :
    (h.delete p).live a = if p = some a then false else h.live a := by
  cases p with
  | none => rfl
  | some b =>
    simp only [delete, Function.update_apply, Option.some.injEq]
    simp only [eq_comm]

theorem twice_delete {h : Heap α} {p : Option α} (hlive : ∀ a, p = some a → h.live a = true) :
    (h.delete p).twice = h.twice := by
  cases p with
  | none => rfl
  | some a =>
    simp [delete, hlive a rfl]

end Heap

/--
`owned x` is what the holder `x` owns.
-/
@[ext]
structure Custody (ι α : Type) where
  heap : Heap α
  owned : ι → Option α

namespace Custody

variable {ι α : Type} [DecidableEq ι]

def put (c : Custody ι α) (x : ι) (o : Option α) : Custody ι α :=
  { c with owned := Function.update c.owned x o }

def drop [DecidableEq α] (c : Custody ι α) (x : ι) : Custody ι α where
  heap := c.heap.delete (c.owned x)
  owned := Function.update c.owned x none

def Owned (c : Custody ι α) (a : α) : Prop := ∃ x, c.owned x = some a

def Accounted (c : Custody ι α) (a : α) : Prop := c.Owned a ∨ c.heap.live a = false

structure Valid (c : Custody ι α) : Prop where
  exclusive (x y : ι) (a : α) : c.owned x = some a → c.owned y = some a → x = y
  live (x : ι) (a : α) : c.owned x = some a → c.heap.live a = true
  once : c.heap.twice = false

variable {c : Custody ι α} {x y : ι} {a : α} {o : Option α}

theorem owned_put : (c.put x o).owned y = if y = x then o else c.owned y := by
  simp [put, Function.update_apply]

theorem Valid.put (h : c.Valid) (hlive : ∀ a, o = some a → c.heap.live a = true)
    (hfree : ∀ a, o = some a → ∀ y, y ≠ x → c.owned y ≠ some a) : (c.put x o).Valid := by
  constructor
  . intro y z a hy hz
    rw [owned_put] at hy hz
    split at hy
    . next hyx =>
      split at hz
      . next hzx => rw [hyx, hzx]
      . next hzx => exact absurd hz (hfree a hy z hzx)
    . next hyx =>
      split at hz
      . exact absurd hy (hfree a hz y hyx)
      . exact h.exclusive y z a hy hz
  . intro y a hy
    rw [owned_put] at hy
    split at hy
    . exact hlive a hy
    . exact h.live y a hy
  . exact h.once

theorem Valid.forget (h : c.Valid) (x : ι) : (c.put x none).Valid := by
  apply h.put
  . intro a ha
    cases ha
  . intro a ha
    cases ha

theorem owned_of_put (h : (c.put x o).Owned a) : c.Owned a ∨ o = some a := by
  obtain ⟨y, hy⟩ := h
  rw [owned_put] at hy
  split at hy
  . exact .inr hy
  . exact .inl ⟨y, hy⟩

theorem put_comm {o' : Option α} (h : x ≠ y) : (c.put x o).put y o' = (c.put y o').put x o := by
  unfold put
  rw [Function.update_comm h]

variable [DecidableEq α]

theorem owned_drop : (c.drop x).owned y = if y = x then none else c.owned y := by
  simp [drop, Function.update_apply]

theorem drop_of_owned_none (h : c.owned x = none) : c.drop x = c := by
  have howned : Function.update c.owned x none = c.owned := by
    rw [← h, Function.update_eq_self]
  unfold drop
  rw [h, howned]
  rfl

theorem Valid.drop (h : c.Valid) (x : ι) : (c.drop x).Valid := by
  constructor
  . intro y z a hy hz
    rw [owned_drop] at hy hz
    split at hy
    . cases hy
    . split at hz
      . cases hz
      . exact h.exclusive y z a hy hz
  . intro y a hy
    rw [owned_drop] at hy
    split at hy
    . cases hy
    . next hne =>
      have hother : c.owned x ≠ some a := by
        intro hx
        exact hne (h.exclusive y x a hy hx)
      show (c.heap.delete (c.owned x)).live a = true
      rw [Heap.live_delete, if_neg hother]
      exact h.live y a hy
  . show (c.heap.delete (c.owned x)).twice = false
    rw [Heap.twice_delete (h.live x)]
    exact h.once

/--
The ways in which ownership changes without a loss. `given` is what has no holder yet.
-/
inductive Change (c : Custody ι α) (given : Option α) : Custody ι α → Prop
  | same : Change c given c
  | replace (x : ι) (o : Option α) (ho : o = none ∨ o = given) : Change c given ((c.drop x).put x o)
  | move (x y : ι) (hne : x ≠ y) : Change c given (((c.drop x).put y none).put x (c.owned y))
  | create (a : α) : Change c given { c with heap := c.heap.create a }
  | destroy (a : α) (hlive : c.heap.live a = true) (hfree : ¬ c.Owned a) :
    Change c given { c with heap := c.heap.delete (some a) }

variable {given : Option α} {c' : Custody ι α}

theorem Change.valid (h : c.Change given c') (hvalid : c.Valid)
    (hgiven : ∀ a, given = some a → c.heap.live a = true ∧ ¬ c.Owned a) : c'.Valid := by
  cases h with
  | same => exact hvalid
  | replace x o ho =>
    have hfree : ∀ a, o = some a → c.heap.live a = true ∧ ¬ c.Owned a := by
      intro a ha
      cases ho with
      | inl ho =>
        rw [ho] at ha
        cases ha
      | inr ho => exact hgiven a (ho.symm.trans ha)
    apply (hvalid.drop x).put
    . intro a ha
      have hnot : c.owned x ≠ some a := fun hx => (hfree a ha).2 ⟨x, hx⟩
      show (c.heap.delete (c.owned x)).live a = true
      rw [Heap.live_delete, if_neg hnot]
      exact (hfree a ha).1
    . intro a ha y hy howned
      rw [owned_drop, if_neg hy] at howned
      exact (hfree a ha).2 ⟨y, howned⟩
  | move x y hne =>
    apply ((hvalid.drop x).forget y).put
    . intro a ha
      have hnot : c.owned x ≠ some a := fun hx => hne (hvalid.exclusive x y a hx ha)
      show (c.heap.delete (c.owned x)).live a = true
      rw [Heap.live_delete, if_neg hnot]
      exact hvalid.live y a ha
    . intro a ha z hz howned
      rw [owned_put] at howned
      split at howned
      . cases howned
      . next hzy =>
        rw [owned_drop, if_neg hz] at howned
        exact hzy (hvalid.exclusive z y a howned ha)
  | create a =>
    constructor
    . exact hvalid.exclusive
    . intro x b hx
      simp only [Heap.create, Function.update_apply]
      split
      . rfl
      . exact hvalid.live x b hx
    . exact hvalid.once
  | destroy a hlive hfree =>
    constructor
    . exact hvalid.exclusive
    . intro x b hx
      have hne : some a ≠ some b := by
        rintro heq
        cases heq
        exact hfree ⟨x, hx⟩
      show (c.heap.delete (some a)).live b = true
      rw [Heap.live_delete, if_neg hne]
      exact hvalid.live x b hx
    . show (c.heap.delete (some a)).twice = false
      rw [Heap.twice_delete]
      . exact hvalid.once
      . intro b hb
        cases hb
        exact hlive

theorem Change.accounted (h : c.Change given c') (ha : c.Owned a) : c'.Accounted a := by
  obtain ⟨z, hz⟩ := ha
  cases h with
  | same => exact .inl ⟨z, hz⟩
  | replace x o ho =>
    by_cases hzx : z = x
    . right
      rw [hzx] at hz
      show (c.heap.delete (c.owned x)).live a = false
      rw [Heap.live_delete, if_pos hz]
    . left
      refine ⟨z, ?_⟩
      rw [owned_put, if_neg hzx, owned_drop, if_neg hzx]
      exact hz
  | move x y hne =>
    by_cases hzx : z = x
    . right
      rw [hzx] at hz
      show (c.heap.delete (c.owned x)).live a = false
      rw [Heap.live_delete, if_pos hz]
    . left
      by_cases hzy : z = y
      . refine ⟨x, ?_⟩
        rw [owned_put, if_pos rfl, ← hzy]
        exact hz
      . refine ⟨z, ?_⟩
        rw [owned_put, if_neg hzx, owned_put, if_neg hzy, owned_drop, if_neg hzx]
        exact hz
  | create b => exact .inl ⟨z, hz⟩
  | destroy b => exact .inl ⟨z, hz⟩

theorem Change.owned (h : c.Change given c') (hx : c'.Owned a) : c.Owned a ∨ given = some a := by
  obtain ⟨z, hz⟩ := hx
  cases h with
  | same => exact .inl ⟨z, hz⟩
  | replace x o ho =>
    rw [owned_put] at hz
    split at hz
    . cases ho with
      | inl ho =>
        rw [ho] at hz
        cases hz
      | inr ho => exact .inr (ho.symm.trans hz)
    . next hzx =>
      rw [owned_drop, if_neg hzx] at hz
      exact .inl ⟨z, hz⟩
  | move x y hne =>
    rw [owned_put] at hz
    split at hz
    . exact .inl ⟨y, hz⟩
    . next hzx =>
      rw [owned_put] at hz
      split at hz
      . cases hz
      . rw [owned_drop, if_neg hzx] at hz
        exact .inl ⟨z, hz⟩
  | create b => exact .inl ⟨z, hz⟩
  | destroy b => exact .inl ⟨z, hz⟩

end Custody
