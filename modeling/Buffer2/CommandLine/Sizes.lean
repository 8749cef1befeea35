import Buffer2.CommandLine.Parseint
import Buffer2.Rounding.Binary64

/-!
This module contains the proofs about the sizes that are stored for the options `-b`, `-r`, `-p`, `-h`
and `-l`: which numbers are stored as they are, and which ones are wrapped around.
-/

namespace CommandLine

open Scanf

inductive SizeOption
  | bufferSize
  | requestSize
  | pipeSize
  | highWaterMark
  | lowWaterMark
  deriving DecidableEq

namespace SizeOption

def letter (o : SizeOption) : Char :=
  match o with
  | .bufferSize => 'b'
  | .requestSize => 'r'
  | .pipeSize => 'p'
  | .highWaterMark => 'h'
  | .lowWaterMark => 'l'

def global (o : SizeOption) (c : Config) : Int :=
  match o with
  | .bufferSize => c.bufferSize
  | .requestSize => c.requestSize
  | .pipeSize => c.pipeSize
  | .highWaterMark => c.iHighWaterMark
  | .lowWaterMark => c.iLowWaterMark

def set (o : SizeOption) (c : Config) (v : Int) : Config :=
  match o with
  | .bufferSize => { c with bufferSize := v }
  | .requestSize => { c with requestSize := v }
  | .pipeSize => { c with pipeSize := v }
  | .highWaterMark =>
    { c with
      iHighWaterMark := v
      dHighWaterMark := .rat (-1) }
  | .lowWaterMark =>
    { c with
      iLowWaterMark := v
      dLowWaterMark := .rat (-1) }

@[simp]
theorem global_set (o : SizeOption) (c : Config) (v : Int) : o.global (o.set c v) = v := by
  cases o <;> rfl

def positive (o : SizeOption) : Bool :=
  match o with
  | .bufferSize | .requestSize | .pipeSize => true
  | .highWaterMark | .lowWaterMark => false

def refuses (o : SizeOption) (v : Int) : Bool := o.positive && v < 1

end SizeOption

def FitsInt (v : Int) : Prop := -2 ^ 31 ≤ v ∧ v < 2 ^ 31

/--
The size `v` is stored as it is or refused, and refused if it does not fit.
-/
structure StoredOrRefused (fl : Rounding) (o : SizeOption) (c : Config) (cp : CString) (v : Int) : Prop where
  stored (c' : Config) : parseoption fl c cp = .ok c' → o.global c' = v
  refused : ¬ FitsInt v → ∃ what, parseoption fl c cp = .error (.syntaxError what)

/--
The numbers whose product with `1024 ^ e` ends up below 1 in a `long`.
-/
def WrapsBelowOne (v : Int) (e : Nat) : Prop :=
  v < -2 ^ 31 ∨ (2 ^ 31 ≤ v ∧ e ≠ 0) ∨
    (FitsInt v ∧ (v % 2 ^ (32 - 10 * e) = 0 ∨ 2 ^ (31 - 10 * e) ≤ v % 2 ^ (32 - 10 * e)))

theorem longMul_lt_one_iff (v : Int) {e : Nat} (he : e ≤ 3) :
    longMul (strtol v) (1024 ^ e) < 1 ↔ WrapsBelowOne v e := by
  have hcases : e = 0 ∨ e = 1 ∨ e = 2 ∨ e = 3 := by omega
  unfold longMul strtol longMin longMax WrapsBelowOne FitsInt Int.bmod
  rcases hcases with rfl | rfl | rfl | rfl
  . simp only [Nat.reducePow, Int.reducePow, Nat.reduceMul, Nat.reduceSub]
    omega
  . simp only [Nat.reducePow, Int.reducePow, Nat.reduceMul, Nat.reduceSub]
    omega
  . simp only [Nat.reducePow, Int.reducePow, Nat.reduceMul, Nat.reduceSub]
    omega
  . simp only [Nat.reducePow, Int.reducePow, Nat.reduceMul, Nat.reduceSub]
    omega

theorem fitsInt_of_mul {v k : Int} (hk : 1 ≤ k) (h : FitsInt (v * k)) : FitsInt v := by
  unfold FitsInt at *
  by_cases hv : 0 ≤ v
  . have := Int.mul_le_mul_of_nonneg_left hk hv
    omega
  . have := Int.mul_le_mul_of_nonpos_left (show v ≤ 0 by omega) hk
    omega

theorem longMul_eq_iff (v : Int) (e : Nat) :
    longMul (strtol v) (1024 ^ e) = v * 1024 ^ e ↔ FitsInt (v * 1024 ^ e) := by
  constructor
  . intro h
    rw [← h]
    unfold FitsInt longMul Int.bmod
    simp only [Nat.reducePow, Int.reducePow]
    omega
  . intro h
    have hpos : (0 : Int) < 1024 ^ e := Int.pow_pos (by decide)
    have hv : strtol v = v := by
      have := fitsInt_of_mul (show 1 ≤ (1024 : Int) ^ e by omega) h
      unfold FitsInt at this
      unfold strtol longMin longMax
      omega
    rw [hv]
    unfold FitsInt at h
    apply Int.bmod_eq_of_le
    . omega
    . omega

section Options

variable {fl : Rounding} {c : Config} {cp : CString} {n : Numeral} {e : Nat}

theorem exponent_le {tail : List Char} (h : UnitText tail e) : e ≤ 3 := by
  cases h with
  | none => decide
  | unit ws c e hws hunit =>
    unfold unitExponent at hunit
    split at hunit <;> cases hunit <;> decide

theorem mem_getLast_of_append {A B : List Char} (hB : B ≠ []) {c : Char}
    (h : (A ++ B).getLast? = some c) : c ∈ B := by
  rw [List.getLast?_append] at h
  have hsome : B.getLast? = some c := by
    rw [List.getLast?_eq_some_getLast hB] at *
    simpa using h
  exact List.mem_of_getLast? hsome

theorem last_ne_percent {chars : List Char} (h : SizeText n e chars) : chars.getLast? ≠ some '%' := by
  obtain ⟨ws, tail, hws, htail, rfl⟩ := h
  intro hlast
  cases htail with
  | none =>
    have hmem : '%' ∈ n.lead :: n.digits := by
      apply mem_getLast_of_append (A := '=' :: (ws ++ (n.sign.text ++ n.radix.text)))
      . simp
      . rw [← hlast]
        simp [Numeral.text]
    have hge := n.ge_of_mem_digits _ hmem
    contradiction
  | unit ws' c e hws' hunit =>
    have hmem : '%' ∈ [c] := by
      apply mem_getLast_of_append (A := '=' :: (ws ++ (n.text ++ ws')))
      . simp
      . rw [← hlast]
        simp
    rw [← List.mem_singleton.mp hmem] at hunit
    cases hunit

theorem charAt_last (h : (cp.drop 2).chars ≠ []) :
    (cp.drop 2).chars.getLast? = some (cp.charAt (1 + (cp.drop 2).strlen)) := by
  have hlen : 2 < cp.chars.length := by
    have := List.length_pos_iff.mpr h
    simp only [CString.drop, List.length_drop] at this
    omega
  simp only [CString.charAt, CString.strlen, CString.drop, List.length_drop]
  rw [List.getLast?_eq_getElem?]
  rw [List.getElem?_drop, List.length_drop]
  rw [show 2 + (cp.chars.length - 2 - 1) = 1 + (cp.chars.length - 2) by omega]
  rw [List.getD_eq_getElem?_getD]
  rw [List.getElem?_eq_getElem (by omega)]
  rfl

theorem parseMark_size (i : Int) (h : SizeText n e (cp.drop 2).chars) :
    parseMark fl cp i = .ok (longMul (strtol n.value) (1024 ^ e), .rat (-1)) := by
  have hne : (cp.drop 2).chars ≠ [] := by
    obtain ⟨ws, tail, _, _, heq⟩ := h
    simp [heq]
  have hlast : cp.charAt (1 + (cp.drop 2).strlen) ≠ '%' := by
    intro heq
    apply last_ne_percent h
    rw [charAt_last hne, heq]
  unfold parseMark
  simp only [hlast, ↓reduceIte]
  rw [parseint_text h]
  rfl

theorem parseSize_size (what : String) (h : SizeText n e (cp.drop 2).chars) :
    parseSize what (cp.drop 2) =
      if longMul (strtol n.value) (1024 ^ e) < 1 then
        .error (.syntaxError what)
      else
        .ok (longMul (strtol n.value) (1024 ^ e)) := by
  unfold parseSize
  rw [parseint_text h]
  rfl

theorem parseoption_size (fl : Rounding) (o : SizeOption) (c : Config)
    (hletter : (cp.charAt 1).toLower = o.letter) (h : SizeText n e (cp.drop 2).chars) :
    ∃ what, parseoption fl c cp =
      if o.refuses (longMul (strtol n.value) (1024 ^ e)) then
        .error (.syntaxError what)
      else
        .ok (o.set c (longMul (strtol n.value) (1024 ^ e))) := by
  unfold parseoption
  rw [hletter]
  cases o with
  | bufferSize =>
    simp only [SizeOption.letter, parseBufferSize]
    rw [parseSize_size _ h]
    refine ⟨"The buffer size must be positive.", ?_⟩
    simp only [SizeOption.refuses, SizeOption.positive, Bool.true_and, decide_eq_true_eq]
    split <;> rfl
  | requestSize =>
    simp only [SizeOption.letter, parseRequestSize]
    rw [parseSize_size _ h]
    refine ⟨"The request size must be positive.", ?_⟩
    simp only [SizeOption.refuses, SizeOption.positive, Bool.true_and, decide_eq_true_eq]
    split <;> rfl
  | pipeSize =>
    simp only [SizeOption.letter, parsePipeSize]
    rw [parseSize_size _ h]
    refine ⟨"The pipe buffer size must be positive.", ?_⟩
    simp only [SizeOption.refuses, SizeOption.positive, Bool.true_and, decide_eq_true_eq]
    split <;> rfl
  | highWaterMark =>
    simp only [SizeOption.letter]
    rw [parseMark_size _ h]
    exact ⟨"", rfl⟩
  | lowWaterMark =>
    simp only [SizeOption.letter]
    rw [parseMark_size _ h]
    exact ⟨"", rfl⟩

end Options

def SizesAreExact : Prop :=
  ∀ (fl : Rounding) (o : SizeOption) (c : Config) (cp : CString) (n : Numeral) (e : Nat),
    (cp.charAt 1).toLower = o.letter → SizeText n e (cp.drop 2).chars →
      StoredOrRefused fl o c cp (n.value * 1024 ^ e)

theorem storedOrRefused_iff (fl : Rounding) (o : SizeOption) (c : Config) (cp : CString) (n : Numeral)
    (e : Nat) (hletter : (cp.charAt 1).toLower = o.letter) (h : SizeText n e (cp.drop 2).chars) :
    StoredOrRefused fl o c cp (n.value * 1024 ^ e) ↔
      FitsInt (n.value * 1024 ^ e) ∨ (o.positive = true ∧ WrapsBelowOne n.value e) := by
  have he : e ≤ 3 := by
    obtain ⟨_, _, _, htail, _⟩ := h
    exact exponent_le htail
  obtain ⟨what, hoption⟩ := parseoption_size fl o c hletter h
  rw [← longMul_eq_iff, ← longMul_lt_one_iff _ he]
  by_cases hrefuses : o.refuses (longMul (strtol n.value) (1024 ^ e)) = true
  . rw [if_pos hrefuses] at hoption
    simp only [SizeOption.refuses, Bool.and_eq_true, decide_eq_true_eq] at hrefuses
    constructor
    . intro _
      exact .inr hrefuses
    . intro _
      constructor
      . intro c' hc'
        rw [hoption] at hc'
        cases hc'
      . intro _
        exact ⟨what, hoption⟩
  . rw [if_neg hrefuses] at hoption
    simp only [SizeOption.refuses, Bool.and_eq_true, decide_eq_true_eq] at hrefuses
    constructor
    . intro hexact
      left
      rw [← hexact.stored _ hoption, SizeOption.global_set]
    . intro hor
      have heq := hor.resolve_right hrefuses
      constructor
      . intro c' hc'
        rw [hoption] at hc'
        cases hc'
        rw [SizeOption.global_set, heq]
      . intro hfits
        exact absurd ((longMul_eq_iff _ _).mp heq) hfits

/--
The number 4194305, which is 1 more than what gives `2 ^ 32` with the unit `k`.
-/
def wrappingNumeral : Numeral where
  sign := .none
  radix := .decimal
  lead := '4'
  digits := ['1', '9', '4', '3', '0', '5']
  valid := List.all_iff_forall_prop.mp (by decide)
  leads := by
    show '4' ≠ '0'
    decide

def wrappingOption : CString where
  chars := ['-', 'b', '='] ++ wrappingNumeral.text ++ ['k']
  nonzero := List.all_iff_forall_prop.mp (by decide)
  fits := by decide

theorem wrappingOption_size : SizeText wrappingNumeral 1 (wrappingOption.drop 2).chars := by
  refine ⟨[], ['k'], by simp, ?_, rfl⟩
  apply UnitText.unit [] 'k' 1
  . simp
  . rfl

theorem not_sizesAreExact : ¬ SizesAreExact := by
  intro h
  have hexact := h .exact .bufferSize .initial wrappingOption wrappingNumeral 1 rfl wrappingOption_size
  obtain ⟨what, hoption⟩ := parseoption_size .exact .bufferSize .initial rfl wrappingOption_size
  have hwraps : longMul (strtol wrappingNumeral.value) (1024 ^ 1) = 1024 := by decide
  rw [hwraps] at hoption
  have heq := hexact.stored _ hoption
  rw [SizeOption.global_set] at heq
  exact absurd heq (by decide)

theorem storedOrRefused_iff_wrapping :
    ¬ StoredOrRefused Binary64.rounding .bufferSize .initial wrappingOption
        (wrappingNumeral.value * 1024 ^ 1) ∧
      StoredOrRefused Binary64.rounding .bufferSize .initial (wrappingOption.cut 10)
        (wrappingNumeral.value * 1024 ^ 0) := by
  constructor
  . rw [storedOrRefused_iff _ .bufferSize .initial wrappingOption wrappingNumeral 1 rfl wrappingOption_size]
    unfold FitsInt WrapsBelowOne FitsInt
    decide
  . have hsize : SizeText wrappingNumeral 0 ((wrappingOption.cut 10).drop 2).chars :=
      ⟨[], [], by simp, .none, rfl⟩
    rw [storedOrRefused_iff _ .bufferSize .initial (wrappingOption.cut 10) wrappingNumeral 0 rfl hsize]
    left
    unfold FitsInt
    decide

end CommandLine
