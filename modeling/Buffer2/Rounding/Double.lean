import Mathlib.Algebra.Order.Field.Rat
import Mathlib.Tactic.NormNum
import Mathlib.Tactic.Positivity
import Buffer2.Rounding.Basic

/-!
This module contains the values of `double` and what a rounding to them keeps.
-/

/--
The values of `double`. There is one zero.
-/
inductive Double
  | rat (q : Rat)
  | inf (negative : Bool)
  | nan
  deriving DecidableEq

namespace Double

def lt (x : Double) (q : Rat) : Bool :=
  match x with
  | .rat r => r < q
  | .inf negative => negative
  | .nan => false

def gt (x : Double) (q : Rat) : Bool :=
  match x with
  | .rat r => q < r
  | .inf negative => !negative
  | .nan => false

def map (x : Double) (f : Rat → Double) : Double :=
  match x with
  | .rat q => f q
  | .inf negative => .inf negative
  | .nan => .nan

def Le (x y : Double) : Prop :=
  match x, y with
  | .rat q, .rat r => q ≤ r
  | .inf true, .rat _ | .inf true, .inf _ => True
  | .rat _, .inf false | .inf false, .inf false => True
  | _, _ => False

end Double

def roundoff : Rat := 1 / 2 ^ 53

def smallestNormal : Rat := 1 / 2 ^ 1022

/--
What `double` makes of an exact result. It keeps the order and all halves that it has the digits for, and the
relative error is bounded for results that are neither tiny nor huge.
-/
structure Rounding where
  round : Rat → Double
  mono {x y : Rat} : x ≤ y → (round x).Le (round y)
  half {n : Int} : |n| < 2 ^ 53 → round (n / 2) = .rat (n / 2)
  near {x : Rat} : smallestNormal ≤ |x| → |x| ≤ 2 ^ 64 → ∃ r, round x = .rat r ∧ |r - x| ≤ roundoff * |x|

theorem roundoff_nonneg : 0 ≤ roundoff := by
  unfold roundoff
  positivity

theorem roundoff_le_one : roundoff ≤ 1 := by
  norm_num [roundoff]

theorem smallestNormal_pos : 0 < smallestNormal := by
  unfold smallestNormal
  positivity

theorem smallestNormal_le : smallestNormal ≤ 1 / 2 ^ 64 := by
  unfold smallestNormal
  apply one_div_le_one_div_of_le (by positivity)
  exact pow_le_pow_right₀ (by norm_num) (by decide)

namespace Rounding

variable {fl : Rounding} {x : Rat}

def exact : Rounding where
  round := .rat
  mono h := h
  half _ := rfl
  near _ _ := ⟨_, rfl, by
    rw [sub_self, abs_zero]
    exact mul_nonneg roundoff_nonneg (abs_nonneg _)⟩

-- The second operand of an operation is exact and positive.

def convert (fl : Rounding) (x : Double) : Double := x.map fl.round

def div (fl : Rounding) (x : Double) (q : Rat) : Double := x.map fun r => fl.round (r / q)

def mul (fl : Rounding) (x : Double) (q : Rat) : Double := x.map fun r => fl.round (q * r)

def add (fl : Rounding) (x : Double) (q : Rat) : Double := x.map fun r => fl.round (r + q)

@[simp]
theorem convert_exact (x : Double) : exact.convert x = x := by
  cases x <;> rfl

@[simp]
theorem mul_rat (fl : Rounding) (q r : Rat) : fl.mul (.rat r) q = fl.round (q * r) := rfl

@[simp]
theorem add_rat (fl : Rounding) (q r : Rat) : fl.add (.rat r) q = fl.round (r + q) := rfl

theorem between {m n : Int} (hm : |m| < 2 ^ 53) (hn : |n| < 2 ^ 53) (hle : (m / 2 : Rat) ≤ x)
    (hle' : x ≤ n / 2) : ∃ r, fl.round x = .rat r ∧ (m / 2 : Rat) ≤ r ∧ r ≤ n / 2 := by
  have hlow := fl.mono hle
  have hhigh := fl.mono hle'
  rw [fl.half hm] at hlow
  rw [fl.half hn] at hhigh
  cases hround : fl.round x with
  | rat r =>
    rw [hround] at hlow hhigh
    exact ⟨r, rfl, hlow, hhigh⟩
  | inf negative =>
    rw [hround] at hlow hhigh
    cases negative
    . cases hhigh
    . cases hlow
  | nan =>
    rw [hround] at hlow
    cases hlow

theorem round_intCast {n : Int} (hn : |n| < 2 ^ 52) : fl.round n = .rat n := by
  have htwice : |2 * n| < 2 ^ 53 := by
    rw [abs_mul, abs_two]
    omega
  have hhalf := fl.half htwice
  rwa [Int.cast_mul, Int.cast_ofNat, mul_div_cancel_left₀ _ (by norm_num)] at hhalf

theorem exists_relError (hx : x = 0 ∨ smallestNormal ≤ |x|) (hle : |x| ≤ 2 ^ 64) :
    ∃ r : RelError roundoff, fl.round x = .rat (r.round x) := by
  obtain rfl | hx := hx
  . have hzero := fl.round_intCast (n := 0) (by decide)
    rw [Int.cast_zero] at hzero
    exact ⟨.exact roundoff_nonneg, by rw [RelError.round_exact, hzero]⟩
  . have hpos := smallestNormal_pos.trans_le hx
    obtain ⟨y, hy, hnear⟩ := fl.near hx hle
    refine ⟨⟨(y - x) / x, ?_⟩, ?_⟩
    . rwa [abs_div, div_le_iff₀ hpos]
    . rw [hy]
      unfold RelError.round
      rw [mul_add, mul_one, mul_div_cancel₀ _ (abs_pos.mp hpos), add_sub_cancel]

/--
Below the normal numbers it is the order that bounds the error.
-/
theorem abs_sub_le (hx : 0 ≤ x) (hle : x ≤ 2 ^ 64) :
    ∃ r, fl.round x = .rat r ∧ |r - x| ≤ roundoff * x + 2 * smallestNormal := by
  have hpos := smallestNormal_pos
  have hone := roundoff_le_one
  by_cases hnormal : smallestNormal ≤ x
  . rw [← abs_of_nonneg hx] at hnormal hle
    obtain ⟨r, hr, hnear⟩ := fl.near hnormal hle
    rw [abs_of_nonneg hx] at hnear
    exact ⟨r, hr, by linarith⟩
  rw [not_le] at hnormal
  have htiny := smallestNormal_le
  obtain ⟨r, hr, hr0, _⟩ := fl.between (m := 0) (n := 1) (by decide) (by decide) (by simpa using hx)
    (hnormal.le.trans (htiny.trans (by norm_num)))
  rw [Int.cast_zero, zero_div] at hr0
  obtain ⟨y, hy, hnear⟩ := fl.near (x := smallestNormal) (by rw [abs_of_pos hpos])
    (by rw [abs_of_pos hpos]; exact htiny.trans (by norm_num))
  rw [abs_of_pos hpos] at hnear
  have hmono := fl.mono hnormal.le
  rw [hr, hy] at hmono
  have hry : r ≤ y := hmono
  have hmul := mul_le_mul_of_nonneg_right hone hpos.le
  have hmul' := mul_nonneg roundoff_nonneg hx
  have := le_abs_self (y - smallestNormal)
  refine ⟨r, hr, ?_⟩
  rw [abs_le]
  constructor <;> linarith

end Rounding
