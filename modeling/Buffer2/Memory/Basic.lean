import Mathlib.Logic.Function.Basic
import Mathlib.Algebra.Group.Nat.Defs
import Mathlib.Data.List.Basic

/-!
This module contains machine words of a fixed width and the contents of address ranges.
-/

namespace Word

def add (w a b : Nat) : Nat := (a + b) % 2 ^ w

def sub (w a b : Nat) : Nat := (a + (2 ^ w - b)) % 2 ^ w

theorem add_eq_of_lt {w a b : Nat} (h : a + b < 2 ^ w) : add w a b = a + b :=
  Nat.mod_eq_of_lt h

theorem sub_eq_of_le {w a b : Nat} (hab : b ≤ a) (ha : a < 2 ^ w) : sub w a b = a - b := by
  unfold sub
  rw [show a + (2 ^ w - b) = (a - b) + 2 ^ w by omega, Nat.add_mod_right]
  exact Nat.mod_eq_of_lt (by omega)

end Word

namespace Memory

variable {β : Type}

def slice (mem : Nat → β) (addr len : Nat) : List β :=
  (List.range len).map fun i => mem (addr + i)

@[simp]
theorem length_slice (mem : Nat → β) (addr len : Nat) : (slice mem addr len).length = len := by
  simp [slice]

@[simp]
theorem slice_zero (mem : Nat → β) (addr : Nat) : slice mem addr 0 = [] := rfl

theorem slice_add (mem : Nat → β) (addr m n : Nat) :
    slice mem addr (m + n) = slice mem addr m ++ slice mem (addr + m) n := by
  simp [slice, List.range_add, Nat.add_assoc, Function.comp_def]

theorem slice_succ (mem : Nat → β) (addr n : Nat) :
    slice mem addr (n + 1) = slice mem addr n ++ [mem (addr + n)] := by
  rw [slice_add]
  simp [slice]

theorem take_slice {mem : Nat → β} {addr m n : Nat} (h : m ≤ n) :
    (slice mem addr n).take m = slice mem addr m := by
  obtain ⟨k, rfl⟩ := Nat.exists_eq_add_of_le h
  rw [slice_add, List.take_append_of_le_length (by simp), List.take_of_length_le (by simp)]

theorem slice_congr {mem mem' : Nat → β} {addr n : Nat}
    (h : ∀ i, i < n → mem (addr + i) = mem' (addr + i)) : slice mem addr n = slice mem' addr n := by
  apply List.map_congr_left
  intro i hi
  exact h i (List.mem_range.mp hi)

theorem slice_update_of_outside {mem : Nat → β} {addr n x : Nat} {b : β}
    (h : x < addr ∨ addr + n ≤ x) : slice (Function.update mem x b) addr n = slice mem addr n := by
  apply slice_congr
  intro i hi
  exact Function.update_of_ne (by omega) _ _

theorem slice_update_succ (mem : Nat → β) (addr n : Nat) (b : β) :
    slice (Function.update mem (addr + n) b) addr (n + 1) = slice mem addr n ++ [b] := by
  rw [slice_succ, slice_update_of_outside (by omega), Function.update_self]

theorem slice_update (mem : Nat → β) (addr n i : Nat) (b : β) :
    slice (Function.update mem (addr + i) b) addr n = (slice mem addr n).set i b := by
  apply List.ext_getElem (by simp)
  intro k hk hk'
  rw [List.getElem_set]
  simp only [slice, List.getElem_map, List.getElem_range]
  split
  . next heq =>
    rw [heq]
    exact Function.update_self _ _ _
  . exact Function.update_of_ne (by omega) _ _

end Memory
