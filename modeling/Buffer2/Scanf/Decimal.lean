import Mathlib.Data.List.Basic
import Mathlib.Data.List.Induction
import Buffer2.Scanf.Numeral

/-!
This module contains the decimal numbers as `printf` writes them, and the proof that `%i` reads them
back although it looks for the radix in the first digits.
-/

namespace Scanf

/--
The text that `%d` prints for a number that is not negative.
-/
def decimal (n : Nat) : List Char := Nat.toDigits 10 n

structure IsDecimal (n : Nat) (ds : List Char) : Prop where
  nonempty : ds ≠ []
  valid : ∀ c ∈ ds, isDigit 10 c = true
  canonical : ds.head? = some '0' → ds = ['0']
  value : ofDigits 10 ds = n

theorem ofDigits_append_singleton (base : Nat) (ds : List Char) (c : Char) :
    ofDigits base (ds ++ [c]) = base * ofDigits base ds + digitVal c := by
  simp [ofDigits]

theorem digitVal_digitChar {n : Nat} (h : n < 10) : digitVal n.digitChar = n := by
  decide +revert

theorem digitVal_eq {c : Char} (h : isDigit 10 c = true) :
    digitVal c + 48 = c.toNat ∧ digitVal c < 10 := by
  simp only [isDigit, digitVal, Char.reduceToNat, decide_eq_true_eq] at *
  split at h
  . split
    . omega
    . contradiction
  . split at h
    . omega
    . split at h <;> omega

theorem digitChar_digitVal {c : Char} (h : isDigit 10 c = true) : (digitVal c).digitChar = c := by
  obtain ⟨heq, hlt⟩ := digitVal_eq h
  rw [← Char.toNat_inj, Nat.toNat_digitChar_of_lt_ten hlt]
  omega

theorem decimal_of_lt {n : Nat} (h : n < 10) : decimal n = [n.digitChar] := Nat.toDigits_of_lt_base h

theorem decimal_of_le {n : Nat} (h : 10 ≤ n) :
    decimal n = decimal (n / 10) ++ [(n % 10).digitChar] := by
  unfold decimal
  rw [Nat.toDigits_of_base_le (by decide) h]

theorem length_decimal_le {n k : Nat} (hk : 0 < k) (h : n < 10 ^ k) : (decimal n).length ≤ k := by
  unfold decimal
  rwa [Nat.length_toDigits_le_iff (by decide) hk]

theorem isDigit_digitChar {n : Nat} (h : n < 10) : isDigit 10 n.digitChar = true := by
  simp only [isDigit, decide_eq_true_eq]
  rwa [digitVal_digitChar h]

theorem isDecimal_digit {n : Nat} (h : n < 10) : IsDecimal n [n.digitChar] where
  nonempty := by simp
  valid := by
    intro c hc
    rw [List.mem_singleton.mp hc]
    exact isDigit_digitChar h
  canonical := by simp
  value := by
    simp [ofDigits, digitVal_digitChar h]

theorem isDecimal_decimal (n : Nat) : IsDecimal n (decimal n) := by
  induction n using Nat.strongRecOn with
  | ind n ih =>
    by_cases h : n < 10
    . rw [decimal_of_lt h]
      exact isDecimal_digit h
    . have hle : 10 ≤ n := by omega
      have hmod : n % 10 < 10 := Nat.mod_lt n (by decide)
      have hdiv := ih (n / 10) (by omega)
      rw [decimal_of_le hle]
      constructor
      . simp
      . intro c hc
        rw [List.mem_append, List.mem_singleton] at hc
        cases hc with
        | inl hc => exact hdiv.valid c hc
        | inr hc =>
          rw [hc]
          exact isDigit_digitChar hmod
      . intro hhead
        rw [List.head?_append_of_ne_nil _ hdiv.nonempty] at hhead
        have hzero := hdiv.value
        rw [hdiv.canonical hhead] at hzero
        have : ofDigits 10 ['0'] = 0 := by decide
        omega
      . rw [ofDigits_append_singleton, hdiv.value, digitVal_digitChar hmod]
        omega

theorem IsDecimal.eq_decimal {n : Nat} {ds : List Char} (h : IsDecimal n ds) : ds = decimal n := by
  induction ds using List.reverseRecOn generalizing n with
  | nil => exact absurd rfl h.nonempty
  | append_singleton g d ih =>
    have hd : isDigit 10 d = true := by
      apply h.valid
      simp
    have hlt := (digitVal_eq hd).2
    have hvalue := h.value
    rw [ofDigits_append_singleton] at hvalue
    by_cases hg : g = []
    . subst hg
      have hn : n = digitVal d := by
        rw [← hvalue]
        simp [ofDigits]
      rw [hn, decimal_of_lt hlt, digitChar_digitVal hd]
      rfl
    . have hhead : g.head? ≠ some '0' := by
        intro hhead
        have happend : (g ++ [d]).head? = some '0' := (List.head?_append_of_ne_nil g hg).trans hhead
        have hlength := congrArg List.length (h.canonical happend)
        apply hg
        simpa using hlength
      have hdecimal : IsDecimal (ofDigits 10 g) g := by
        constructor
        . exact hg
        . intro c hc
          apply h.valid
          exact List.mem_append_left _ hc
        . intro hzero
          exact absurd hzero hhead
        . rfl
      have hpos : ofDigits 10 g ≠ 0 := by
        intro hzero
        rw [hzero] at hdecimal
        rw [ih hdecimal] at hhead
        exact hhead rfl
      have hdiv : n / 10 = ofDigits 10 g := by omega
      have hmod : n % 10 = digitVal d := by omega
      rw [decimal_of_le (by omega), hdiv, hmod, ← ih hdecimal, digitChar_digitVal hd]

/--
A single 0 is an octal number for `%i`, everything else has no leading zero.
-/
theorem IsDecimal.exists_numeral {n : Nat} {ds : List Char} (h : IsDecimal n ds) :
    ∃ m : Numeral, m.text = ds ∧ m.value = n := by
  obtain ⟨c, t, rfl⟩ := List.exists_cons_of_ne_nil h.nonempty
  by_cases hc : c = '0'
  . subst hc
    have ht := h.canonical rfl
    cases ht
    refine ⟨⟨.none, .octal, '0', [], List.all_iff_forall_prop.mp (by decide), rfl⟩, rfl, ?_⟩
    exact congrArg Int.ofNat h.value
  . refine ⟨⟨.none, .decimal, c, t, h.valid, hc⟩, rfl, ?_⟩
    exact congrArg Int.ofNat h.value

end Scanf
