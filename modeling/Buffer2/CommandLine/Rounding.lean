import Mathlib.Data.Rat.Floor
import Mathlib.Tactic.NormNum
import Mathlib.Tactic.Positivity
import Buffer2.CommandLine.Basic
import Buffer2.Machine.Fold

/-!
This module contains the water marks as `double` computes them, with the rounding errors of all operations
between the command line and the FIFO.

The conversions of `int` and `size_t` to `double` are exact.
-/

namespace CommandLine

abbrev DoubleError := RelError roundoff

/--
The errors of the division in `main` and of the two operations in `Part2Bytes`.
-/
structure MarkErrors where
  div : DoubleError
  mul : DoubleError
  add : DoubleError

def waterMarkRounded (r : MarkErrors) (what : String) (bufferSize i : Int) (d : Double) :
    Except Failure Double :=
  if d.lt 0 then
    if i > bufferSize then
      .error (.syntaxError what)
    else
      .ok (.rat (r.div.round (i / bufferSize)))
  else
    .ok d

def part2BytesRounded (r : MarkErrors) (bufferSize : Int) (part : Double) : Except Failure Nat :=
  if part.lt 0 || part.gt 1 then
    .error (.invalidArgument "The fractional part of the fifo buffer is not in the range [0,1].")
  else
    match part with
    | .rat q => .ok (r.add.round (r.mul.round (bufferSize * q) + 1 / 2)).floor.toNat
    | _ => .error .undefined

def constructRounded (rHigh rLow : MarkErrors) (s : Settings) : Except Failure Started := do
  let lowWaterMark ← part2BytesRounded rLow s.config.bufferSize s.config.dLowWaterMark
  let highWaterMark ← part2BytesRounded rHigh s.config.bufferSize s.config.dHighWaterMark
  return { settings := s, lowWaterMark, highWaterMark }

def exact : MarkErrors where
  div := .exact roundoff_nonneg
  mul := .exact roundoff_nonneg
  add := .exact roundoff_nonneg

section Bounds

variable {bufferSize i : Int} {q : Rat} {r : MarkErrors} {d : Double}

theorem waterMarkRounded_eq (what : String) (hd : d.lt 0 = true) (hi : i ≤ bufferSize) :
    waterMarkRounded r what bufferSize i d = .ok (.rat (r.div.round (i / bufferSize))) := by
  simp [waterMarkRounded, hd, hi]

theorem part2BytesRounded_eq (hq : 0 ≤ q) (hq' : q ≤ 1) :
    part2BytesRounded r bufferSize (.rat q) =
      .ok ⌊r.add.round (r.mul.round (bufferSize * q) + 1 / 2)⌋.toNat := by
  unfold part2BytesRounded
  rw [if_neg (by simp [Double.lt, Double.gt, not_lt.mpr hq, not_lt.mpr hq'])]
  rfl

theorem part2BytesRounded_above (hq : 1 < q) :
    part2BytesRounded r bufferSize (.rat q) =
      .error (.invalidArgument "The fractional part of the fifo buffer is not in the range [0,1].") := by
  simp [part2BytesRounded, Double.gt, hq]

theorem quotient_nonneg (hi : 0 ≤ i) (hle : i ≤ bufferSize) : 0 ≤ r.div.round (i / bufferSize : Rat) := by
  apply r.div.round_nonneg roundoff_le_one
  exact div_nonneg (by exact_mod_cast hi) (by exact_mod_cast hi.trans hle)

theorem quotient_le_one (hi : 0 ≤ i) (hlt : i < bufferSize) (hsize : bufferSize < 2 ^ 31) :
    r.div.round (i / bufferSize : Rat) ≤ 1 := by
  have hpos : (0 : Rat) < bufferSize := by exact_mod_cast hi.trans_lt hlt
  have hsucc : (i : Rat) + 1 ≤ bufferSize := by exact_mod_cast hlt
  have hbound : (i : Rat) < 2 ^ 31 := by exact_mod_cast hlt.trans hsize
  have hround := r.div.round_le (x := (i / bufferSize : Rat))
    (div_nonneg (by exact_mod_cast hi) hpos.le) (le_refl _)
  apply hround.trans
  -- The quotient is less than 1 by more than its error.
  rw [div_mul_eq_mul_div, div_le_one hpos]
  unfold roundoff
  linarith

theorem one_lt_quotient_iff (hpos : 0 < bufferSize) :
    1 < r.div.round (bufferSize / bufferSize : Rat) ↔ 0 < r.div.error := by
  have hone : (bufferSize / bufferSize : Rat) = 1 := div_self (by exact_mod_cast hpos.ne')
  rw [hone]
  simp [RelError.round]

theorem product_near (hi : 0 ≤ i) (hpos : 0 < bufferSize) :
    |r.mul.round (bufferSize * r.div.round (i / bufferSize : Rat)) - i| ≤
      roundoff * i + roundoff * (i + roundoff * i) := by
  have hi' : (0 : Rat) ≤ i := by exact_mod_cast hi
  have hpos' : (0 : Rat) < bufferSize := by exact_mod_cast hpos
  have hquotient : |bufferSize * r.div.round (i / bufferSize : Rat) - i| ≤ roundoff * i := by
    have hscale : (bufferSize * r.div.round (i / bufferSize : Rat) - i : Rat) =
        bufferSize * (r.div.round (i / bufferSize : Rat) - i / bufferSize) := by
      field_simp
    rw [hscale, abs_mul, abs_of_pos hpos']
    calc (bufferSize : Rat) * |r.div.round (i / bufferSize : Rat) - i / bufferSize|
      _ ≤ bufferSize * (roundoff * |(i / bufferSize : Rat)|) :=
        mul_le_mul_of_nonneg_left (r.div.abs_round_sub _) hpos'.le
      _ = roundoff * i := by
        rw [abs_of_nonneg (div_nonneg hi' hpos'.le)]
        field_simp
  have hmul := r.mul.abs_round_sub_le hquotient
  rw [abs_of_nonneg hi'] at hmul
  exact hmul

theorem mark_eq (hi : 0 ≤ i) (hpos : 0 < bufferSize) (hle : i ≤ 2 ^ 31) :
    ⌊r.add.round (r.mul.round (bufferSize * r.div.round (i / bufferSize : Rat)) + 1 / 2)⌋ = i := by
  apply RelError.floor_eq_of_abs_sub_lt
  have hi' : (0 : Rat) ≤ i := by exact_mod_cast hi
  have hle' : (i : Rat) ≤ 2 ^ 31 := by exact_mod_cast hle
  have hsum : |r.mul.round (bufferSize * r.div.round (i / bufferSize : Rat)) + 1 / 2 - (i + 1 / 2)| ≤
      roundoff * i + roundoff * (i + roundoff * i) := by
    rw [add_sub_add_right_eq_sub]
    exact product_near hi hpos
  apply (r.add.abs_round_sub_le hsum).trans_lt
  rw [abs_of_nonneg (by linarith)]
  unfold roundoff
  linarith

theorem fraction_le (hq : 0 ≤ q) (hq' : q ≤ 1) (hpos : 0 < bufferSize) (hsize : bufferSize < 2 ^ 31) :
    0 ≤ ⌊r.add.round (r.mul.round (bufferSize * q) + 1 / 2)⌋ ∧
      ⌊r.add.round (r.mul.round (bufferSize * q) + 1 / 2)⌋ ≤ bufferSize := by
  have hpos' : (0 : Rat) < bufferSize := by exact_mod_cast hpos
  have hsize' : (bufferSize : Rat) < 2 ^ 31 := by exact_mod_cast hsize
  have hproduct : 0 ≤ (bufferSize * q : Rat) := mul_nonneg hpos'.le hq
  have hmul := r.mul.round_nonneg roundoff_le_one hproduct
  have hmul' := r.mul.round_le hproduct (mul_le_of_le_one_right hpos'.le hq')
  constructor
  . apply Int.floor_nonneg.mpr
    apply r.add.round_nonneg roundoff_le_one
    linarith
  . have hadd := r.add.round_le (x := r.mul.round (bufferSize * q) + 1 / 2) (by linarith)
      (add_le_add_left hmul' _)
    apply Int.lt_add_one_iff.mp
    apply Int.floor_lt.mpr
    apply hadd.trans_lt
    push_cast
    unfold roundoff
    linarith

theorem part2BytesRounded_le {n : Nat} (hpos : 0 < bufferSize) (hsize : bufferSize < 2 ^ 31)
    (h : part2BytesRounded r bufferSize d = .ok n) : (n : Int) ≤ bufferSize := by
  unfold part2BytesRounded at h
  split at h
  . cases h
  . next hrange =>
    split at h
    . next q =>
      simp only [Double.lt, Double.gt, Bool.or_eq_true, decide_eq_true_eq, not_or, not_lt] at hrange
      have hfloor := fraction_le (r := r) hrange.1 hrange.2 hpos hsize
      cases h
      exact (Int.toNat_of_nonneg hfloor.1).trans_le hfloor.2
    . cases h

end Bounds

/--
What `main` and `Part2Bytes` make of a mark in bytes.
-/
def markRounded (r : MarkErrors) (what : String) (bufferSize i : Int) (d : Double) : Except Failure Nat :=
  waterMarkRounded r what bufferSize i d >>= part2BytesRounded r bufferSize

def tooLarge : Failure :=
  .invalidArgument "The fractional part of the fifo buffer is not in the range [0,1]."

/--
A mark in bytes whose quotient is not rounded to more than 1.
-/
structure Absolute (r : MarkErrors) (bufferSize i : Int) (d : Double) : Prop where
  nonneg : 0 ≤ i
  le : i ≤ bufferSize
  noFraction : d.lt 0 = true
  quotient : i < bufferSize ∨ r.div.error ≤ 0

section Marks

variable {bufferSize i : Int} {r : MarkErrors} {d : Double}

theorem Absolute.part_eq (h : Absolute r bufferSize i d) (what : String) (hpos : 0 < bufferSize)
    (hsize : bufferSize < 2 ^ 31) :
    ∃ part, waterMarkRounded r what bufferSize i d = .ok part ∧
      part2BytesRounded r bufferSize part = .ok i.toNat := by
  refine ⟨_, waterMarkRounded_eq what h.noFraction h.le, ?_⟩
  have hone : r.div.round (i / bufferSize : Rat) ≤ 1 := by
    obtain rfl | hlt := h.le.eq_or_lt
    . apply not_lt.mp
      rw [one_lt_quotient_iff hpos, not_lt]
      exact h.quotient.resolve_left (lt_irrefl i)
    . exact quotient_le_one h.nonneg hlt hsize
  rw [part2BytesRounded_eq (quotient_nonneg h.nonneg h.le) hone]
  rw [mark_eq h.nonneg hpos (h.le.trans hsize.le)]

theorem Absolute.markRounded_eq (h : Absolute r bufferSize i d) (what : String) (hpos : 0 < bufferSize)
    (hsize : bufferSize < 2 ^ 31) : markRounded r what bufferSize i d = .ok i.toNat := by
  obtain ⟨part, hpart, hbytes⟩ := h.part_eq what hpos hsize
  unfold markRounded
  rw [hpart]
  exact hbytes

theorem markRounded_above (what : String) (hpos : 0 < bufferSize) (hd : d.lt 0 = true)
    (hround : 0 < r.div.error) : markRounded r what bufferSize bufferSize d = .error tooLarge := by
  unfold markRounded
  rw [waterMarkRounded_eq what hd (le_refl _)]
  exact part2BytesRounded_above ((one_lt_quotient_iff hpos).mpr hround)

variable {rHigh rLow : MarkErrors} {s : Settings} {t : Started}

theorem constructRounded_le (hpos : 0 < s.config.bufferSize) (hsize : s.config.bufferSize < 2 ^ 31)
    (h : constructRounded rHigh rLow s = .ok t) :
    (t.lowWaterMark : Int) ≤ s.config.bufferSize ∧ (t.highWaterMark : Int) ≤ s.config.bufferSize := by
  unfold constructRounded at h
  obtain ⟨low, hlow, h⟩ := Fold.exists_of_bind_ok h
  obtain ⟨high, hhigh, h⟩ := Fold.exists_of_bind_ok h
  cases h
  exact ⟨part2BytesRounded_le hpos hsize hlow, part2BytesRounded_le hpos hsize hhigh⟩

end Marks

theorem waterMarks_rounded (bufferSize : Int) (hpos : 1 ≤ bufferSize) (hsize : bufferSize < 2 ^ 31) :
    (∀ (r : MarkErrors) (what : String) (i : Int) (d : Double), 0 ≤ i → i ≤ bufferSize → d.lt 0 = true →
      (i < bufferSize ∨ r.div.error ≤ 0 → markRounded r what bufferSize i d = .ok i.toNat) ∧
      (i = bufferSize ∧ 0 < r.div.error → markRounded r what bufferSize i d = .error tooLarge)) ∧
    (∀ (r : MarkErrors) (q : Rat), 0 ≤ q → q ≤ 1 →
      ∃ n : Nat, part2BytesRounded r bufferSize (.rat q) = .ok n ∧ (n : Int) ≤ bufferSize) ∧
    ∀ (rHigh rLow : MarkErrors) (s : Settings) (t : Started), s.config.bufferSize = bufferSize →
      constructRounded rHigh rLow s = .ok t →
        (t.lowWaterMark : Int) ≤ bufferSize ∧ (t.highWaterMark : Int) ≤ bufferSize := by
  refine ⟨?_, ?_, ?_⟩
  . intro r what i d hi hle hd
    constructor
    . intro hround
      exact Absolute.markRounded_eq ⟨hi, hle, hd, hround⟩ what hpos hsize
    . rintro ⟨rfl, hround⟩
      exact markRounded_above what hpos hd hround
  . intro r q hq hq'
    have hpart : part2BytesRounded r bufferSize (.rat q) = _ := part2BytesRounded_eq hq hq'
    exact ⟨_, hpart, part2BytesRounded_le hpos hsize hpart⟩
  . rintro rHigh rLow s t rfl h
    exact constructRounded_le hpos hsize h

def RoundingIsExact : Prop :=
  ∀ bufferSize : Int, 1 ≤ bufferSize → bufferSize < 2 ^ 31 →
    (∀ (r : MarkErrors) (what : String) (i : Int) (d : Double), 0 ≤ i → i ≤ bufferSize → d.lt 0 = true →
      markRounded r what bufferSize i d = .ok i.toNat) ∧
    (∀ (r : MarkErrors) (q : Rat), 0 ≤ q → q ≤ 1 →
      ∃ n : Nat, part2BytesRounded r bufferSize (.rat q) = .ok n ∧ (n : Int) ≤ bufferSize) ∧
    ∀ (rHigh rLow : MarkErrors) (s : Settings) (t : Started), s.config.bufferSize = bufferSize →
      constructRounded rHigh rLow s = .ok t →
        (t.lowWaterMark : Int) ≤ bufferSize ∧ (t.highWaterMark : Int) ≤ bufferSize

def roundsUp : DoubleError where
  error := roundoff
  abs_le := by rw [abs_of_nonneg roundoff_nonneg]

/--
A high water mark of one byte in a buffer of one byte, with a quotient of `1 + 2 ^ -53`.
-/
theorem not_roundingIsExact : ¬ RoundingIsExact := by
  intro h
  have hmark := (h 1 (by decide) (by decide)).1 { exact with div := roundsUp } "" 1 (.rat (-1)) (by decide)
    (by decide) (by decide +kernel)
  rw [markRounded_above "" (by decide) (by decide +kernel) (by norm_num [roundsUp, roundoff])] at hmark
  cases hmark

theorem waterMarks_rounded_third :
    markRounded { div := roundsUp, mul := roundsUp, add := roundsUp } "" 3 1 (.rat (-1)) = .ok 1 :=
  ((waterMarks_rounded 3 (by decide) (by decide)).1 _ "" 1 (.rat (-1)) (by decide) (by decide)
    (by decide +kernel)).1 (.inl (by decide))

section Rounding

variable {fl : Rounding} {bufferSize i : Int} {p q t m y : Rat} {d : Double} {n : Nat}

theorem part2Bytes_eq (hq : 0 ≤ q) (hq' : q ≤ 1) (hproduct : fl.round (bufferSize * q) = .rat m)
    (hsum : fl.round (m + 1 / 2) = .rat y) : part2Bytes fl bufferSize (.rat q) = .ok ⌊y⌋.toNat := by
  unfold part2Bytes
  rw [if_neg (by simp [Double.lt, Double.gt, not_lt.mpr hq, not_lt.mpr hq'])]
  rw [Rounding.mul_rat, hproduct, Rounding.add_rat, hsum]
  rfl

theorem exists_sum (fl : Rounding) (hpos : 0 < bufferSize) (hsize : bufferSize < 2 ^ 31) (hq : 0 ≤ q)
    (hq' : q ≤ 1) :
    ∃ m y, fl.round (bufferSize * q) = .rat m ∧ fl.round (m + 1 / 2) = .rat y ∧
      0 ≤ m ∧ m ≤ bufferSize ∧ 0 ≤ y ∧ y ≤ bufferSize + 1 / 2 := by
  have hpos' : (0 : Rat) < bufferSize := by exact_mod_cast hpos
  have hproduct : 0 ≤ bufferSize * q := mul_nonneg hpos'.le hq
  have hproduct' : bufferSize * q ≤ bufferSize := mul_le_of_le_one_right hpos'.le hq'
  have htwice : |2 * bufferSize| < 2 ^ 53 := by
    rw [abs_lt]
    omega
  have htwice' : |2 * bufferSize + 1| < 2 ^ 53 := by
    rw [abs_lt]
    omega
  obtain ⟨m, hm, hm0, hm1⟩ := fl.between (x := bufferSize * q) (m := 0) (by decide) htwice
    (by push_cast; linarith) (by push_cast; linarith)
  push_cast at hm0 hm1
  obtain ⟨y, hy, hy0, hy1⟩ := fl.between (x := m + 1 / 2) (m := 0) (by decide) htwice'
    (by push_cast; linarith) (by push_cast; linarith)
  push_cast at hy0 hy1
  exact ⟨m, y, hm, hy, by linarith, by linarith, by linarith, by linarith⟩

theorem part2Bytes_cases (hpos : 0 < bufferSize) (hsize : bufferSize < 2 ^ 31)
    (h : part2Bytes fl bufferSize d = .ok n) :
    ∃ q m y, d = .rat q ∧ 0 ≤ q ∧ q ≤ 1 ∧ fl.round (bufferSize * q) = .rat m ∧
      fl.round (m + 1 / 2) = .rat y ∧ 0 ≤ m ∧ m ≤ bufferSize ∧ 0 ≤ y ∧ y ≤ bufferSize + 1 / 2 ∧
      (n : Int) = ⌊y⌋ := by
  cases d with
  | rat q =>
    have hrange : 0 ≤ q ∧ q ≤ 1 := by
      unfold part2Bytes at h
      split at h
      . cases h
      . next hrange =>
        simp only [Double.lt, Double.gt, Bool.or_eq_true, decide_eq_true_eq, not_or, not_lt] at hrange
        exact hrange
    obtain ⟨m, y, hm, hy, hm0, hm1, hy0, hy1⟩ := exists_sum fl hpos hsize hrange.1 hrange.2
    rw [part2Bytes_eq hrange.1 hrange.2 hm hy] at h
    cases h
    exact ⟨q, m, y, rfl, hrange.1, hrange.2, hm, hy, hm0, hm1, hy0, hy1,
      Int.toNat_of_nonneg (Int.floor_nonneg.mpr hy0)⟩
  | inf negative => cases negative <;> cases h
  | nan => cases h

theorem part2Bytes_le (hpos : 0 < bufferSize) (hsize : bufferSize < 2 ^ 31)
    (h : part2Bytes fl bufferSize d = .ok n) : (n : Int) ≤ bufferSize := by
  obtain ⟨q, m, y, _, _, _, _, _, _, _, _, hy, hn⟩ := part2Bytes_cases hpos hsize h
  rw [hn]
  apply Int.lt_add_one_iff.mp
  apply Int.floor_lt.mpr
  push_cast
  linarith

theorem roundoff_le_half : roundoff ≤ 1 / 2 := by
  norm_num [roundoff]

theorem normal_of_le (h : 1 / 2 ^ 64 ≤ q) : smallestNormal ≤ |q| :=
  smallestNormal_le.trans (h.trans (le_abs_self q))

/--
Where a mark in bytes goes through, the errors of the three operations are relative ones.
-/
theorem exists_markErrors (fl : Rounding) (hpos : 0 < bufferSize) (hsize : bufferSize < 2 ^ 31) (hi : 0 ≤ i)
    (hle : i ≤ bufferSize) :
    ∃ r : MarkErrors, fl.round (i / bufferSize) = .rat (r.div.round (i / bufferSize)) ∧
      fl.round (bufferSize * r.div.round (i / bufferSize)) =
        .rat (r.mul.round (bufferSize * r.div.round (i / bufferSize))) ∧
      fl.round (r.mul.round (bufferSize * r.div.round (i / bufferSize)) + 1 / 2) =
        .rat (r.add.round (r.mul.round (bufferSize * r.div.round (i / bufferSize)) + 1 / 2)) := by
  have hpos' : (0 : Rat) < bufferSize := by exact_mod_cast hpos
  have hi' : (0 : Rat) ≤ i := by exact_mod_cast hi
  have hsize' : (bufferSize : Rat) ≤ 2 ^ 31 := by exact_mod_cast hsize.le
  have hle' : (i : Rat) ≤ bufferSize := by exact_mod_cast hle
  have hquotient : (0 : Rat) ≤ i / bufferSize := div_nonneg hi' hpos'.le
  -- A mark of 0 is exact throughout, every other one is far from the tiny numbers.
  have hzero : i = 0 ∨ (1 : Rat) ≤ i := by
    obtain rfl | hlt := hi.eq_or_lt
    . exact .inl rfl
    . exact .inr (by exact_mod_cast hlt)
  obtain ⟨div, hdiv⟩ := fl.exists_relError (x := i / bufferSize)
    (by
      apply hzero.imp
      . rintro rfl
        simp
      . intro hone
        apply normal_of_le
        rw [le_div_iff₀ hpos']
        linarith)
    (by
      rw [abs_of_nonneg hquotient, div_le_iff₀ hpos']
      linarith)
  have hscale : (bufferSize * div.round (i / bufferSize) : Rat) = div.round i := by
    unfold RelError.round
    field_simp
  have hdivNear := div.abs_round_sub (i : Rat)
  rw [abs_of_nonneg hi', abs_le] at hdivNear
  have hi31 : roundoff * i ≤ 1 / 2 * i := mul_le_mul_of_nonneg_right roundoff_le_half hi'
  obtain ⟨mul, hmul⟩ := fl.exists_relError (x := bufferSize * div.round (i / bufferSize))
    (by
      rw [hscale]
      apply hzero.imp
      . rintro rfl
        simp [RelError.round]
      . intro hone
        apply normal_of_le
        linarith)
    (by
      rw [hscale, abs_of_nonneg (div.round_nonneg roundoff_le_one hi')]
      linarith)
  have hproduct := div.round_nonneg roundoff_le_one hi'
  have hmulPos := mul.round_nonneg roundoff_le_one hproduct
  have hmulNear := mul.abs_round_sub (div.round (i : Rat))
  rw [abs_of_nonneg hproduct, abs_le] at hmulNear
  have hm31 := mul_le_mul_of_nonneg_right roundoff_le_half hproduct
  obtain ⟨add, hadd⟩ := fl.exists_relError
    (x := mul.round (bufferSize * div.round (i / bufferSize)) + 1 / 2)
    (by
      right
      apply normal_of_le
      rw [hscale]
      linarith)
    (by
      rw [hscale, abs_of_nonneg (by linarith)]
      linarith)
  exact ⟨⟨div, mul, add⟩, hdiv, hmul, hadd⟩

theorem part2Bytes_absolute (fl : Rounding) (hpos : 0 < bufferSize) (hsize : bufferSize < 2 ^ 31)
    (hi : 0 ≤ i) (hle : i ≤ bufferSize) :
    part2Bytes fl bufferSize (fl.round (i / bufferSize)) = .ok i.toNat := by
  obtain ⟨r, hdiv, hmul, hadd⟩ := exists_markErrors fl hpos hsize hi hle
  have hpos' : (0 : Rat) < bufferSize := by exact_mod_cast hpos
  obtain ⟨q, hq, hq0, hq1⟩ := fl.between (x := i / bufferSize) (m := 0) (n := 2) (by decide) (by decide)
    (by simpa using div_nonneg (by exact_mod_cast hi) hpos'.le)
    (by rw [div_le_iff₀ hpos']; simpa using hle)
  rw [hdiv] at hq
  cases hq
  rw [hdiv, part2Bytes_eq (by simpa using hq0) (by simpa using hq1) hmul hadd]
  rw [mark_eq hi hpos (hle.trans hsize.le)]

theorem part2Bytes_near (hpos : 0 < bufferSize) (hsize : bufferSize < 2 ^ 31)
    (hnear : |q - t| ≤ 1 / 2 ^ 51) (h : part2Bytes fl bufferSize (.rat q) = .ok n) :
    |n - bufferSize * t| ≤ 1 / 2 + 1 / 2 ^ 19 := by
  have hpos' : (0 : Rat) < bufferSize := by exact_mod_cast hpos
  have hsize' : (bufferSize : Rat) ≤ 2 ^ 31 := by exact_mod_cast hsize.le
  have htiny := smallestNormal_le
  obtain ⟨q, m, y, hq, hq0, hq1, hm, hy, hm0, hm1, hy0, _, hn⟩ := part2Bytes_cases hpos hsize h
  cases hq
  have hproduct : 0 ≤ bufferSize * q := mul_nonneg hpos'.le hq0
  have hproduct' : bufferSize * q ≤ bufferSize := mul_le_of_le_one_right hpos'.le hq1
  obtain ⟨m', hm', hmNear⟩ := fl.abs_sub_le hproduct (by linarith)
  rw [hm] at hm'
  cases hm'
  obtain ⟨y', hy', hyNear⟩ := fl.abs_sub_le (x := m + 1 / 2) (by linarith) (by linarith)
  rw [hy] at hy'
  cases hy'
  have hscale : |bufferSize * q - bufferSize * t| ≤ 2 ^ 31 * (1 / 2 ^ 51) := by
    rw [← mul_sub, abs_mul, abs_of_pos hpos']
    exact mul_le_mul hsize' hnear (abs_nonneg _) (by norm_num)
  have hfloor : (n : Rat) = (⌊y⌋ : Int) := by exact_mod_cast hn
  have hle := Int.floor_le y
  have hlt := Int.lt_floor_add_one y
  rw [← hfloor] at hle hlt
  unfold roundoff at hmNear hyNear
  rw [abs_le] at hmNear hyNear hscale ⊢
  constructor <;> linarith

end Rounding

end CommandLine
