import Buffer2.CommandLine.Marks
import Buffer2.CommandLine.Rounding
import Buffer2.Rounding.Binary64

/-!
This module contains what a level on the command line comes to in bytes, however `double` rounds.
-/

namespace CommandLine

open Scanf

namespace Level

/--
A level in bytes is exact. A percentage is rounded to the nearest byte, with an error from the roundings.
-/
def Bytes (m : Level) (bufferSize : Int) (n : Nat) : Prop :=
  match m with
  | .absolute k e => n = k * 1024 ^ e
  | .relative q => |n - bufferSize * (q / 100)| ≤ 1 / 2 + 1 / 2 ^ 19

def Approximates (m : Level) (mark : Mark) : Prop :=
  match m with
  | .absolute k e => mark = .absolute (longMul (strtol k) (1024 ^ e))
  | .relative q => ∃ r, mark = .relative (.rat r) ∧ 0 ≤ r ∧ r ≤ 1 ∧ |r - q / 100| ≤ 1 / 2 ^ 51

end Level

section Percentages

variable {fl : Rounding} {cp : CString} {x : Double} {q : Rat}

theorem sscanf_parsedouble (fl : Rounding) (src : CString) :
    sscanf src (parsedoubleFormat fl) parsedoubleVars =
      ((sscanf src (parsedoubleFormat .exact) parsedoubleVars).1,
        { (sscanf src (parsedoubleFormat .exact) parsedoubleVars).2 with
          ret := (sscanf src (parsedoubleFormat .exact) parsedoubleVars).2.ret.map fl.convert }) := by
  unfold sscanf parsedoubleFormat parsedoubleVars
  cases src.chars with
  | nil => rfl
  | cons c s =>
    simp only [sscanfGo]
    split
    . split
      . rfl
      . rfl
      . simp
    . rfl

theorem parsedouble_convert (h : parsedouble .exact cp = .ok x) : parsedouble fl cp = .ok (fl.convert x) := by
  unfold parsedouble at *
  rw [sscanf_parsedouble fl cp]
  simp only at *
  split at h
  . cases h
  . next hread =>
    rw [if_neg hread]
    cases hret : (sscanf cp (parsedoubleFormat .exact) parsedoubleVars).2.ret with
    | none =>
      rw [hret] at h
      cases h
    | some y =>
      rw [hret] at h
      cases h
      rfl

theorem parsePercentage_near (fl : Rounding) (hparse : parsedouble .exact (percentage cp) = .ok (.rat q))
    (hq : 0 ≤ q) (hq' : q ≤ 100) :
    ∃ r, parsePercentage fl cp = .ok (.rat r) ∧ 0 ≤ r ∧ r ≤ 1 ∧ |r - q / 100| ≤ 1 / 2 ^ 51 := by
  have htiny := smallestNormal_le
  obtain ⟨p, hp, hp0, hp1⟩ := fl.between (x := q) (m := 0) (n := 200) (by decide) (by decide)
    (by simpa using hq) (by norm_num; exact hq')
  push_cast at hp0 hp1
  obtain ⟨p', hp', hpNear⟩ := fl.abs_sub_le hq (by linarith)
  cases hp.symm.trans hp'
  obtain ⟨r, hr, hr0, hr1⟩ := fl.between (x := p / 100) (m := 0) (n := 2) (by decide) (by decide)
    (by push_cast; linarith) (by push_cast; linarith)
  push_cast at hr0 hr1
  obtain ⟨r', hr', hrNear⟩ := fl.abs_sub_le (x := p / 100) (by linarith) (by linarith)
  cases hr.symm.trans hr'
  have hdiv : fl.div (fl.convert (.rat q)) 100 = .rat r := by
    simp [Rounding.convert, Rounding.div, Double.map, hp, hr]
  refine ⟨r, ?_, by linarith, by linarith, ?_⟩
  . rw [parsePercentage_eq (parsedouble_convert hparse), hdiv, if_neg]
    simp only [Double.lt, Double.gt, Bool.or_eq_true, decide_eq_true_eq, not_or, not_lt]
    constructor <;> linarith
  . unfold roundoff at hpNear hrNear
    rw [abs_le] at hpNear hrNear ⊢
    constructor <;> linarith

end Percentages

section Levels

variable {fl : Rounding} {args : List CString} {cp : CString} {m default : Level} {mark : Mark} {d : Double}
variable {l : Char} {bufferSize : Int} {n : Nat}

theorem approximates_of_denotes (h : Denotes cp m) (hin : ¬ m.OutOfRange bufferSize)
    (hmark : parsedMark fl cp = .ok mark) : m.Approximates mark := by
  cases h with
  | absolute k e hsize =>
    rw [← map_parseMark fl cp 0, parseMark_size 0 hsize] at hmark
    cases hmark
    rfl
  | relative q hrelative hparse =>
    simp only [Level.OutOfRange, not_or, not_lt] at hin
    obtain ⟨r, hr, hr0, hr1, hnear⟩ := parsePercentage_near fl hparse hin.1 hin.2
    unfold parsedMark at hmark
    rw [if_pos hrelative, hr] at hmark
    cases hmark
    exact ⟨r, rfl, hr0, hr1, hnear⟩

theorem approximates_of_decided {defaultMark : Mark} (h : LastMark l default args m)
    (hin : ¬ m.OutOfRange bufferSize) (hdefault : default.Approximates defaultMark)
    (hmark : Fold.decided (hasLetter l) (parsedMark fl) defaultMark args = .ok mark) :
    m.Approximates mark := by
  unfold LastMark at h
  unfold Fold.decided at hmark
  split at h
  . next hnone =>
    rw [hnone] at hmark
    cases hmark
    rwa [h]
  . next cp hlast =>
    rw [hlast] at hmark
    exact approximates_of_denotes h hin hmark

theorem bytes_of_approximates {what : String} (h : m.Approximates mark) (hpos : 1 ≤ bufferSize)
    (hfits : FitsInt bufferSize) (hin : ¬ m.OutOfRange bufferSize)
    (hfraction : mark.fraction fl what bufferSize = .ok d) (hbytes : part2Bytes fl bufferSize d = .ok n) :
    m.Bytes bufferSize n := by
  cases m with
  | absolute k e =>
    simp only [Level.OutOfRange, not_or, Int.not_lt] at hin
    have hsame : longMul (strtol k) (1024 ^ e) = k * 1024 ^ e := by
      rw [longMul_eq_iff]
      unfold FitsInt at *
      omega
    have hmark : mark = .absolute (k * 1024 ^ e) := hsame ▸ h
    have hnot : ¬ k * 1024 ^ e > bufferSize := by omega
    rw [hmark] at hfraction
    simp only [Mark.fraction, hnot, if_false] at hfraction
    cases hfraction
    rw [part2Bytes_absolute fl hpos hfits.2 hin.1 hin.2] at hbytes
    cases hbytes
    exact Int.toNat_of_nonneg hin.1
  | relative q =>
    obtain ⟨r, hmark, _, _, hnear⟩ := h
    rw [hmark] at hfraction
    cases hfraction
    exact part2Bytes_near hpos hfits.2 hnear hbytes

-- 28.5% of 100 bytes, where the quotient 0.285 is rounded down.
example : (part2Bytes Binary64.rounding 100 (Binary64.rounding.div (.rat (57 / 2)) 100)).toOption = some 28 := by
  decide +kernel

end Levels

end CommandLine
