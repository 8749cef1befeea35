import Mathlib.Algebra.Order.Field.Basic
import Mathlib.Algebra.Order.Round
import Mathlib.Tactic.Linarith
import Mathlib.Tactic.Ring

/-!
This module contains the arithmetic of operations whose exact result is off by a bounded relative error, and
the rules that carry absolute bounds through them.
-/

structure RelError {K : Type} [Field K] [LinearOrder K] (u : K) where
  error : K
  abs_le : |error| ≤ u

namespace RelError

variable {K : Type} [Field K] [LinearOrder K] {u x y d : K}

def round (r : RelError u) (x : K) : K := x * (1 + r.error)

variable [IsStrictOrderedRing K]

def exact (hu : 0 ≤ u) : RelError u where
  error := 0
  abs_le := by simpa using hu

@[simp]
theorem round_exact (hu : 0 ≤ u) (x : K) : (exact hu).round x = x := by
  simp [exact, round]

theorem bound_nonneg (r : RelError u) : 0 ≤ u := (abs_nonneg r.error).trans r.abs_le

theorem abs_round_sub (r : RelError u) (x : K) : |r.round x - x| ≤ u * |x| := by
  have hsub : r.round x - x = r.error * x := by
    unfold round
    ring
  rw [hsub, abs_mul]
  exact mul_le_mul_of_nonneg_right r.abs_le (abs_nonneg x)

/--
One more operation on an operand that is off by `d`.
-/
theorem abs_round_sub_le (r : RelError u) (h : |y - x| ≤ d) : |r.round y - x| ≤ d + u * (|x| + d) := by
  have hy : |y| ≤ |x| + d := by
    have htriangle := abs_sub_abs_le_abs_sub y x
    linarith
  calc |r.round y - x|
    _ ≤ |r.round y - y| + |y - x| := abs_sub_le _ _ _
    _ ≤ u * |y| + d := add_le_add (r.abs_round_sub y) h
    _ ≤ u * (|x| + d) + d := by
      have := mul_le_mul_of_nonneg_left hy r.bound_nonneg
      linarith
    _ = d + u * (|x| + d) := add_comm _ _

theorem round_nonneg (r : RelError u) (hu : u ≤ 1) (hx : 0 ≤ x) : 0 ≤ r.round x := by
  apply mul_nonneg hx
  have := neg_le_of_abs_le r.abs_le
  linarith

theorem round_le (r : RelError u) (hx : 0 ≤ x) (hxy : x ≤ y) : r.round x ≤ y * (1 + u) := by
  have herror := le_of_abs_le r.abs_le
  have hu := r.bound_nonneg
  calc r.round x
    _ ≤ x * (1 + u) := mul_le_mul_of_nonneg_left (by linarith) hx
    _ ≤ y * (1 + u) := mul_le_mul_of_nonneg_right hxy (by linarith)

theorem floor_eq_of_abs_sub_lt [FloorRing K] {n : ℤ} (h : |y - (n + 1 / 2)| < 1 / 2) : ⌊y⌋ = n := by
  rw [abs_lt] at h
  rw [Int.floor_eq_iff]
  constructor <;> linarith

end RelError
