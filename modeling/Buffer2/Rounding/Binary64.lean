import Mathlib.Algebra.Order.Field.Power
import Mathlib.Data.Rat.Floor
import Mathlib.Tactic.FieldSimp
import Mathlib.Tactic.NormNum
import Mathlib.Tactic.Positivity
import Buffer2.Rounding.Double

/-!
This module contains the rounding of binary64 to the nearest value, and of two nearest ones to the even one.
-/

namespace Binary64

section Integers

def nearestEven (x : Rat) : Int :=
  let n := ⌊x⌋
  if x - n < 1 / 2 then
    n
  else if 1 / 2 < x - n then
    n + 1
  else if n % 2 = 0 then
    n
  else
    n + 1

variable {x y : Rat}

theorem nearestEven_intCast (n : Int) : nearestEven n = n := by
  simp [nearestEven]

theorem abs_nearestEven_sub_le (x : Rat) : |nearestEven x - x| ≤ 1 / 2 := by
  have hle := Int.floor_le x
  have hlt := Int.lt_floor_add_one x
  rw [abs_le]
  unfold nearestEven
  simp only
  split
  . constructor <;> linarith
  . split
    . push_cast
      constructor <;> linarith
    . split
      . constructor <;> linarith
      . push_cast
        constructor <;> linarith

theorem nearestEven_mono (h : x ≤ y) : nearestEven x ≤ nearestEven y := by
  have hfloor := Int.floor_le_floor h
  obtain hlt | heq := hfloor.lt_or_eq
  . -- Both values stay within one of their floors.
    have hx : nearestEven x ≤ ⌊x⌋ + 1 := by
      unfold nearestEven
      simp only
      split_ifs <;> omega
    have hy : ⌊y⌋ ≤ nearestEven y := by
      unfold nearestEven
      simp only
      split_ifs <;> omega
    omega
  . unfold nearestEven
    simp only
    rw [heq]
    split_ifs <;> first | omega | linarith

theorem nearestEven_le {n : Int} (h : x ≤ n) : nearestEven x ≤ n := by
  rw [← nearestEven_intCast n]
  exact nearestEven_mono h

theorem le_nearestEven {n : Int} (h : n ≤ x) : n ≤ nearestEven x := by
  rw [← nearestEven_intCast n]
  exact nearestEven_mono h

end Integers

section Exponents

def log2 (x : Rat) : Int :=
  let e : Int := x.num.natAbs.log2 - x.den.log2
  if 2 ^ e ≤ |x| then e else e - 1

variable {x y : Rat}

theorem pow_log2_le (hx : x ≠ 0) : (2 : Rat) ^ log2 x ≤ |x| ∧ |x| < 2 ^ (log2 x + 1) := by
  have hnum : x.num.natAbs ≠ 0 := by simpa using hx
  have hlow : (2 : Rat) ^ x.num.natAbs.log2 ≤ x.num.natAbs := by exact_mod_cast Nat.log2_self_le hnum
  have hhigh : (x.num.natAbs : Rat) < 2 ^ (x.num.natAbs.log2 + 1) := by exact_mod_cast Nat.lt_log2_self
  have hlow' : (2 : Rat) ^ x.den.log2 ≤ x.den := by exact_mod_cast Nat.log2_self_le x.den_ne_zero
  have hhigh' : (x.den : Rat) < 2 ^ (x.den.log2 + 1) := by exact_mod_cast Nat.lt_log2_self
  have hden : (0 : Rat) < x.den := by exact_mod_cast x.den_pos
  have habs : |x| = x.num.natAbs / x.den := by
    conv_lhs => rw [← Rat.num_div_den x]
    rw [abs_div, abs_of_pos hden, Nat.cast_natAbs, Int.cast_abs]
  have hpow : (2 : Rat) ^ (x.num.natAbs.log2 - x.den.log2 : Int) =
      2 ^ x.num.natAbs.log2 / 2 ^ x.den.log2 := by
    rw [zpow_sub₀ (by norm_num), zpow_natCast, zpow_natCast]
  have hupper : |x| < 2 ^ (x.num.natAbs.log2 - x.den.log2 + 1 : Int) := by
    rw [zpow_add_one₀ (by norm_num), hpow, habs, div_mul_eq_mul_div, ← pow_succ]
    exact div_lt_div₀ hhigh hlow' (by positivity) (by positivity)
  have hlower : (2 : Rat) ^ (x.num.natAbs.log2 - x.den.log2 - 1 : Int) ≤ |x| := by
    rw [zpow_sub_one₀ (by norm_num), hpow, habs, ← div_eq_mul_inv, div_div, ← pow_succ]
    exact div_le_div₀ (by positivity) hlow hden hhigh'.le
  unfold log2
  simp only
  split
  . next hle => exact ⟨hle, hupper⟩
  . next hnot =>
    rw [sub_add_cancel]
    exact ⟨hlower, not_le.mp hnot⟩

theorem log2_mono (hx : x ≠ 0) (h : |x| ≤ |y|) : log2 x ≤ log2 y := by
  have hy : y ≠ 0 := by
    rintro rfl
    rw [abs_zero] at h
    exact hx (abs_nonpos_iff.mp h)
  have hlt := (pow_log2_le hx).1.trans_lt (h.trans_lt (pow_log2_le hy).2)
  rw [zpow_lt_zpow_iff_right₀ (by norm_num)] at hlt
  omega

/--
The exponent of the last digit.
-/
def ulp (x : Rat) : Int := max (log2 x - 52) (-1074)

end Exponents

def magnitude (x : Rat) : Rat := nearestEven (x / 2 ^ ulp x) * 2 ^ ulp x

section Magnitude

variable {x y : Rat}

theorem pow_pos (e : Int) : (0 : Rat) < 2 ^ e := zpow_pos (by norm_num) e

theorem magnitude_zero : magnitude 0 = 0 := by
  have hzero : nearestEven 0 = 0 := nearestEven_intCast 0
  simp [magnitude, hzero]

theorem magnitude_nonneg (hx : 0 ≤ x) : 0 ≤ magnitude x := by
  apply mul_nonneg _ (pow_pos _).le
  have hle : ((0 : Int) : Rat) ≤ x / 2 ^ ulp x := by
    rw [Int.cast_zero]
    exact div_nonneg hx (pow_pos _).le
  exact_mod_cast le_nearestEven hle

theorem abs_magnitude_sub_le (x : Rat) : |magnitude x - x| ≤ 2 ^ ulp x / 2 := by
  have hpos := pow_pos (ulp x)
  have hscale : magnitude x - x = (nearestEven (x / 2 ^ ulp x) - x / 2 ^ ulp x) * 2 ^ ulp x := by
    unfold magnitude
    rw [sub_mul, div_mul_cancel₀ _ hpos.ne']
  rw [hscale, abs_mul, abs_of_pos hpos]
  have hhalf := mul_le_mul_of_nonneg_right (abs_nearestEven_sub_le (x / 2 ^ ulp x)) hpos.le
  linarith

theorem pow_div_pow {e k : Int} (h : k ≤ e) : ∃ n : Int, (2 : Rat) ^ e / 2 ^ k = n := by
  refine ⟨2 ^ (e - k).toNat, ?_⟩
  rw [← zpow_sub₀ (by norm_num)]
  conv_lhs => rw [← Int.toNat_of_nonneg (show 0 ≤ e - k by omega)]
  rw [zpow_natCast]
  push_cast
  rfl

theorem magnitude_le_pow {e : Int} (hulp : ulp x ≤ e) (h : x ≤ 2 ^ e) : magnitude x ≤ 2 ^ e := by
  obtain ⟨n, hn⟩ := pow_div_pow hulp
  have hpos := pow_pos (ulp x)
  have hle : x / 2 ^ ulp x ≤ n := by
    rw [← hn]
    exact div_le_div_of_nonneg_right h hpos.le
  unfold magnitude
  rw [← le_div_iff₀ hpos, hn]
  exact_mod_cast nearestEven_le hle

theorem pow_le_magnitude {e : Int} (hulp : ulp x ≤ e) (h : 2 ^ e ≤ x) : 2 ^ e ≤ magnitude x := by
  obtain ⟨n, hn⟩ := pow_div_pow hulp
  have hpos := pow_pos (ulp x)
  have hle : (n : Rat) ≤ x / 2 ^ ulp x := by
    rw [← hn]
    exact div_le_div_of_nonneg_right h hpos.le
  unfold magnitude
  rw [← div_le_iff₀ hpos, hn]
  exact_mod_cast le_nearestEven hle

theorem magnitude_mono (hx : 0 ≤ x) (h : x ≤ y) : magnitude x ≤ magnitude y := by
  obtain rfl | hpos := hx.eq_or_lt
  . rw [magnitude_zero]
    exact magnitude_nonneg h
  have hypos := hpos.trans_le h
  have hlog : log2 x ≤ log2 y := by
    apply log2_mono hpos.ne'
    rwa [abs_of_pos hpos, abs_of_pos hypos]
  have hulp : ulp x ≤ ulp y := by
    unfold ulp
    omega
  obtain heq | hlt := hulp.eq_or_lt
  . unfold magnitude
    rw [heq]
    apply mul_le_mul_of_nonneg_right _ (pow_pos _).le
    exact_mod_cast nearestEven_mono (div_le_div_of_nonneg_right h (pow_pos _).le)
  . -- The power of two that `y` starts with lies between the two and on the grid of both.
    have hxlt := (pow_log2_le hpos.ne').2
    have hyle := (pow_log2_le hypos.ne').1
    rw [abs_of_pos hpos] at hxlt
    rw [abs_of_pos hypos] at hyle
    have hlog' : log2 x + 1 ≤ log2 y := by
      unfold ulp at hlt
      omega
    have hstep : (2 : Rat) ^ (log2 x + 1) ≤ 2 ^ log2 y := zpow_le_zpow_right₀ (by norm_num) hlog'
    calc magnitude x
      _ ≤ 2 ^ log2 y := magnitude_le_pow (by unfold ulp at *; omega) (hxlt.le.trans hstep)
      _ ≤ magnitude y := pow_le_magnitude (by unfold ulp at *; omega) hyle

theorem magnitude_half {n : Int} (hn : 0 ≤ n) (hlt : n < 2 ^ 53) : magnitude (n / 2) = n / 2 := by
  obtain rfl | hpos := hn.eq_or_lt
  . simp [magnitude_zero]
  have hhalf : (0 : Rat) < n / 2 := by
    have : (0 : Rat) < n := by exact_mod_cast hpos
    linarith
  have hbounds := pow_log2_le hhalf.ne'
  rw [abs_of_pos hhalf] at hbounds
  have hone : (1 : Rat) ≤ n := by exact_mod_cast hpos
  have hmax : (n : Rat) < 2 ^ 53 := by exact_mod_cast hlt
  have hge : -1 ≤ log2 (n / 2) := by
    have hlt : (2 : Rat) ^ (-1 : Int) < 2 ^ (log2 (n / 2) + 1) := by
      apply lt_of_le_of_lt _ hbounds.2
      norm_num
      linarith
    rw [zpow_lt_zpow_iff_right₀ (by norm_num)] at hlt
    omega
  have hle : log2 (n / 2) ≤ 51 := by
    have hlt : (2 : Rat) ^ log2 (n / 2) < 2 ^ (52 : Int) := by
      apply lt_of_le_of_lt hbounds.1
      norm_num
      linarith
    rw [zpow_lt_zpow_iff_right₀ (by norm_num)] at hlt
    omega
  obtain ⟨m, hm⟩ := pow_div_pow (k := ulp (n / 2)) (e := -1) (by unfold ulp; omega)
  have hscale : (n / 2 : Rat) / 2 ^ ulp (n / 2) = ((n * m : Int) : Rat) := by
    push_cast
    rw [← hm, zpow_neg_one]
    ring
  unfold magnitude
  rw [hscale, nearestEven_intCast, ← hscale, div_mul_cancel₀ _ (pow_pos _).ne']

theorem abs_magnitude_sub_le_mul (hx : smallestNormal ≤ x) : |magnitude x - x| ≤ roundoff * x := by
  have hpos := smallestNormal_pos.trans_le hx
  have hbounds := pow_log2_le hpos.ne'
  rw [abs_of_pos hpos] at hbounds
  have hge : -1022 ≤ log2 x := by
    have hlt : (2 : Rat) ^ (-1022 : Int) < 2 ^ (log2 x + 1) := by
      apply lt_of_le_of_lt _ hbounds.2
      rw [zpow_neg, ← one_div]
      unfold smallestNormal at hx
      exact_mod_cast hx
    rw [zpow_lt_zpow_iff_right₀ (by norm_num)] at hlt
    omega
  have hulp : ulp x = log2 x - 52 := by
    unfold ulp
    omega
  calc |magnitude x - x|
    _ ≤ 2 ^ ulp x / 2 := abs_magnitude_sub_le x
    _ = roundoff * 2 ^ log2 x := by
      rw [hulp, zpow_sub₀ (by norm_num)]
      unfold roundoff
      norm_num
      ring
    _ ≤ roundoff * x := mul_le_mul_of_nonneg_left hbounds.1 (by unfold roundoff; positivity)

end Magnitude

def round (x : Rat) : Double :=
  if 2 ^ 1024 ≤ magnitude |x| then
    .inf (x < 0)
  else
    .rat (if x < 0 then -magnitude |x| else magnitude |x|)

section Round

variable {x y : Rat}

theorem round_of_nonneg (h : 0 ≤ x) :
    round x = if 2 ^ 1024 ≤ magnitude x then .inf false else .rat (magnitude x) := by
  simp [round, abs_of_nonneg h, not_lt.mpr h]

theorem round_of_neg (h : x < 0) :
    round x = if 2 ^ 1024 ≤ magnitude (-x) then .inf true else .rat (-magnitude (-x)) := by
  simp [round, abs_of_neg h, h]

theorem round_mono (h : x ≤ y) : (round x).Le (round y) := by
  by_cases hx : 0 ≤ x
  . have hmono := magnitude_mono hx h
    rw [round_of_nonneg hx, round_of_nonneg (hx.trans h)]
    split
    . next hbig =>
      rw [if_pos (hbig.trans hmono)]
      trivial
    . split
      . trivial
      . exact hmono
  rw [not_le] at hx
  rw [round_of_neg hx]
  by_cases hy : 0 ≤ y
  . have hle : -magnitude (-x) ≤ magnitude y := by
      have := magnitude_nonneg (neg_nonneg.mpr hx.le)
      have := magnitude_nonneg hy
      linarith
    rw [round_of_nonneg hy]
    split
    . split <;> trivial
    . split
      . trivial
      . exact hle
  . rw [not_le] at hy
    have hmono := magnitude_mono (neg_nonneg.mpr hy.le) (neg_le_neg h)
    rw [round_of_neg hy]
    split
    . split <;> trivial
    . next hbig =>
      rw [if_neg fun hbig' => hbig (hbig'.trans hmono)]
      exact neg_le_neg hmono

theorem round_half {n : Int} (hn : |n| < 2 ^ 53) : round (n / 2) = .rat (n / 2) := by
  have hsmall : ¬ (2 : Rat) ^ 1024 ≤ (|n| : Int) / 2 := by
    have hlt : ((|n| : Int) : Rat) < 2 ^ 53 := by exact_mod_cast hn
    have hpos : (0 : Rat) ≤ (|n| : Int) := by exact_mod_cast abs_nonneg n
    rw [not_le]
    calc ((|n| : Int) / 2 : Rat)
      _ ≤ (|n| : Int) := half_le_self hpos
      _ < 2 ^ 53 := hlt
      _ ≤ 2 ^ 1024 := pow_le_pow_right₀ (by norm_num) (by decide)
  have habs : |(n / 2 : Rat)| = (|n| : Int) / 2 := by
    rw [abs_div, abs_of_pos (show (0 : Rat) < 2 by norm_num), Int.cast_abs]
  unfold round
  rw [habs, magnitude_half (abs_nonneg n) hn, if_neg hsmall, ← habs]
  split
  . next hneg => rw [abs_of_neg hneg, neg_neg]
  . next hpos => rw [abs_of_nonneg (not_lt.mp hpos)]

theorem round_near (hx : smallestNormal ≤ |x|) (hx' : |x| ≤ 2 ^ 64) :
    ∃ r, round x = .rat r ∧ |r - x| ≤ roundoff * |x| := by
  have hne : |x| ≠ 0 := (smallestNormal_pos.trans_le hx).ne'
  have hlog : log2 |x| ≤ 64 := by
    have hle := (pow_log2_le hne).1
    rw [abs_abs] at hle
    have hpow : (2 : Rat) ^ log2 |x| ≤ 2 ^ (64 : Int) := hle.trans (by exact_mod_cast hx')
    rwa [zpow_le_zpow_iff_right₀ (by norm_num)] at hpow
  have hsmall : ¬ (2 : Rat) ^ 1024 ≤ magnitude |x| := by
    have hle : magnitude |x| ≤ 2 ^ (64 : Int) :=
      magnitude_le_pow (by unfold ulp; omega) (by exact_mod_cast hx')
    have hlt : (2 : Rat) ^ (64 : Int) < 2 ^ (1024 : Int) := zpow_lt_zpow_right₀ (by norm_num) (by decide)
    rw [not_le]
    exact_mod_cast hle.trans_lt hlt
  have hnear := abs_magnitude_sub_le_mul hx
  unfold round
  rw [if_neg hsmall]
  refine ⟨_, rfl, ?_⟩
  split
  . next hneg =>
    rw [abs_of_neg hneg] at *
    rwa [← abs_neg, neg_sub, sub_neg_eq_add, add_comm, ← sub_neg_eq_add]
  . next hpos =>
    rw [abs_of_nonneg (not_lt.mp hpos)] at *
    exact hnear

end Round

def rounding : Rounding where
  round := round
  mono := round_mono
  half := round_half
  near := round_near

end Binary64
