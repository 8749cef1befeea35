import Buffer2.Memory.Basic

/-!
This module contains the cells of a ring of `size` cells that starts at the address `base`.
-/

namespace Memory

variable {β : Type}

def window (mem : Nat → β) (base size start len : Nat) : List β :=
  (List.range len).map fun i => mem (base + (start + i) % size)

@[simp]
theorem length_window (mem : Nat → β) (base size start len : Nat) :
    (window mem base size start len).length = len := by
  simp [window]

@[simp]
theorem window_zero (mem : Nat → β) (base size start : Nat) : window mem base size start 0 = [] := rfl

theorem window_add (mem : Nat → β) (base size start m n : Nat) :
    window mem base size start (m + n) =
      window mem base size start m ++ window mem base size (start + m) n := by
  simp [window, List.range_add, Nat.add_assoc, Function.comp_def]

theorem window_mod (mem : Nat → β) (base size start len : Nat) :
    window mem base size (start % size) len = window mem base size start len := by
  simp [window]

theorem window_congr {mem mem' : Nat → β} {base size start n : Nat}
    (h : ∀ i, i < n → mem (base + (start + i) % size) = mem' (base + (start + i) % size)) :
    window mem base size start n = window mem' base size start n := by
  apply List.map_congr_left
  intro i hi
  exact h i (List.mem_range.mp hi)

theorem window_eq_slice {mem : Nat → β} {base size start n : Nat} (h : start + n ≤ size) :
    window mem base size start n = slice mem (base + start) n := by
  apply List.map_congr_left
  intro i hi
  rw [List.mem_range] at hi
  rw [Nat.mod_eq_of_lt (by omega), Nat.add_assoc]

theorem mod_eq_ite {n size : Nat} (h : n < 2 * size) :
    n % size = if n < size then n else n - size := by
  split
  . next hlt => exact Nat.mod_eq_of_lt hlt
  . next hge =>
    rw [Nat.mod_eq_sub_mod (by omega)]
    exact Nat.mod_eq_of_lt (by omega)

theorem window_update_of_free {mem : Nat → β} {base size start n x : Nat} {b : β}
    (hstart : start < size) (hn : n ≤ size)
    (hx : ∃ j, j < size - n ∧ x = base + (start + n + j) % size) :
    window (Function.update mem x b) base size start n = window mem base size start n := by
  obtain ⟨j, hj, rfl⟩ := hx
  apply window_congr
  intro i hi
  apply Function.update_of_ne
  -- Neither of the two positions wraps more than once.
  rw [mod_eq_ite (by omega), mod_eq_ite (by omega)]
  split <;> split <;> omega

end Memory
