import Buffer2.CommandLine.Basic
import Buffer2.Scanf.Numeral

/-!
This module contains the grammar of the sizes on the command line and the proof that `parseint` takes
exactly these.
-/

namespace CommandLine

open Scanf

/--
The power of 1024 that a unit stands for.
-/
def unitExponent (c : Char) : Option Nat :=
  match c with
  | 'k' | 'K' => some 1
  | 'm' | 'M' => some 2
  | 'g' | 'G' => some 3
  | _ => none

inductive UnitText : List Char → Nat → Prop
  | none : UnitText [] 0
  | unit (ws : List Char) (c : Char) (e : Nat) (hws : ∀ d ∈ ws, isspace d = true)
      (hunit : unitExponent c = some e) : UnitText (ws ++ [c]) e

/--
The text `=<n><unit>`, with white space where `sscanf` skips it.
-/
def SizeText (n : Numeral) (e : Nat) (s : List Char) : Prop :=
  ∃ ws tail, (∀ d ∈ ws, isspace d = true) ∧ UnitText tail e ∧ s = '=' :: (ws ++ (n.text ++ tail))

theorem mem_units_of_unitExponent {c : Char} {e : Nat} (h : unitExponent c = some e) :
    c ∈ ['k', 'K', 'm', 'M', 'g', 'G'] := by
  unfold unitExponent at h
  split at h <;> first | decide | cases h

section Sscanf

variable {src : CString} {s rest : List Char} {v : Int}

theorem strtol_bmod (v : Int) : Int.bmod (strtol v) (2 ^ 32) = strtol v := by
  have hle : -2 ^ 31 ≤ strtol v ∧ strtol v < 2 ^ 31 := by
    unfold strtol longMin longMax
    omega
  apply Int.bmod_eq_of_le
  . omega
  . omega

theorem sscanf_number (hsrc : src.chars = '=' :: s) (hscan : scanInt s = .item v rest)
    (hrest : rest.dropWhile isspace = []) :
    sscanf src parseintFormat parseintVars =
      (1, { ret := some (strtol v), l := src.strlen - rest.length, unit := nul }) := by
  unfold sscanf parseintFormat
  rw [hsrc]
  simp only [sscanfGo, hscan, hrest, strtol_bmod]
  rfl

theorem sscanf_unit {c : Char} {u : List Char} (hsrc : src.chars = '=' :: s)
    (hscan : scanInt s = .item v rest) (hrest : rest.dropWhile isspace = c :: u) :
    sscanf src parseintFormat parseintVars =
      (2, { ret := some (strtol v), l := src.strlen - u.length, unit := c }) := by
  have hc : isspace c = false := by
    have hhead := List.head?_dropWhile_not isspace rest
    simpa [hrest] using hhead
  unfold sscanf parseintFormat
  rw [hsrc]
  simp only [sscanfGo, hscan, hrest, strtol_bmod]
  simp [hc]

end Sscanf

section Cases

variable {src : CString} {s rest : List Char} {v : Int}

theorem parseint_of_l (h : (sscanf src parseintFormat parseintVars).2.l ≠ src.strlen) :
    ∃ what, parseint src = .error (.syntaxError what) := by
  unfold parseint
  simp only
  rw [if_pos (.inr h)]
  exact ⟨_, rfl⟩

theorem length_le_of_scanInt (h : scanInt s = .item v rest) : rest.length ≤ s.length := by
  obtain ⟨ws, n, rfl, _⟩ := exists_of_scanInt h
  simp only [List.length_append]
  omega

theorem strlen_eq (hsrc : src.chars = '=' :: s) : src.strlen = s.length + 1 := by
  simp [CString.strlen, hsrc]

theorem applyUnit_nul : applyUnit src (some v) nul = .ok v := by
  have hupper : nul.toUpper = nul := by decide
  unfold applyUnit
  rw [hupper]
  simp [nul, load]

theorem applyUnit_unit {c : Char} {e : Nat} (h : unitExponent c = some e) :
    applyUnit src (some v) c = .ok (longMul v (1024 ^ e)) := by
  unfold unitExponent at h
  split at h <;> cases h <;> rfl

theorem toNat_toUpper (c : Char) :
    c.toUpper.toNat = if 97 ≤ c.toNat ∧ c.toNat ≤ 122 then c.toNat - 32 else c.toNat := by
  have hge : 'a'.val ≤ c.val ↔ 97 ≤ c.toNat := UInt32.le_iff_toNat_le
  have hle : c.val ≤ 'z'.val ↔ c.toNat ≤ 122 := UInt32.le_iff_toNat_le
  have hsub : ('A'.val - 'a'.val).toNat = 2 ^ 32 - 32 := by decide
  unfold Char.toUpper
  split
  . next h =>
    have hge' := hge.mp h.1
    have hle' := hle.mp h.2
    rw [if_pos ⟨hge', hle'⟩]
    show (c.val + ('A'.val - 'a'.val)).toNat = c.toNat - 32
    rw [UInt32.toNat_add]
    rw [hsub]
    show (c.toNat + (2 ^ 32 - 32)) % 2 ^ 32 = c.toNat - 32
    omega
  . next h =>
    rw [hge, hle] at h
    rw [if_neg h]

theorem eq_of_toUpper {c u : Char} (h : c.toUpper = u) :
    c = u ∨ c.toNat = u.toNat + 32 := by
  have hnat := congrArg Char.toNat h
  rw [toNat_toUpper] at hnat
  split at hnat
  . right
    omega
  . left
    exact Char.toNat_inj.mp hnat

theorem unitExponent_of_toUpper {c : Char} (h : c.toUpper = 'K' ∨ c.toUpper = 'M' ∨ c.toUpper = 'G') :
    unitExponent c ≠ none := by
  have hlower : ∀ u l : Char, c.toUpper = u → l.toNat = u.toNat + 32 → c = u ∨ c = l := by
    intro u l hu hl
    apply (eq_of_toUpper hu).imp_right
    intro hc
    apply Char.toNat_inj.mp
    omega
  rcases h with h | h | h
  . rcases hlower 'K' 'k' h rfl with rfl | rfl <;> decide
  . rcases hlower 'M' 'm' h rfl with rfl | rfl <;> decide
  . rcases hlower 'G' 'g' h rfl with rfl | rfl <;> decide

theorem applyUnit_error {c : Char} (h : unitExponent c = none) (hc : c ≠ nul) :
    ∃ what, applyUnit src (some v) c = .error (.syntaxError what) := by
  have hnot : ∀ u : Char, c.toUpper = u → u = 'K' ∨ u = 'M' ∨ u = 'G' → False := by
    rintro u rfl hu
    exact unitExponent_of_toUpper hu h
  have hnul : c.toUpper ≠ nul := by
    intro hu
    have hnat := congrArg Char.toNat hu
    rw [toNat_toUpper] at hnat
    have hzero : nul.toNat = 0 := by decide
    rw [hzero] at hnat
    split at hnat
    . omega
    . exact hc (Char.toNat_inj.mp hnat)
  unfold applyUnit
  split
  . next hu => exact absurd (.inl rfl) (hnot _ hu)
  . next hu => exact absurd (.inr (.inl rfl)) (hnot _ hu)
  . next hu => exact absurd (.inr (.inr rfl)) (hnot _ hu)
  . rw [if_neg hnul]
    exact ⟨_, rfl⟩

theorem parseint_of_sscanf {n : Int} {l : Nat} {unit : Char}
    (h : sscanf src parseintFormat parseintVars = (n, { ret := some v, l, unit })) (hn : n ≠ 0)
    (hl : l = src.strlen) : parseint src = applyUnit src (some v) unit := by
  unfold parseint
  rw [h]
  simp [hn, hl]

theorem parseint_number (hsrc : src.chars = '=' :: s) (hscan : scanInt s = .item v []) :
    parseint src = .ok (strtol v) := by
  rw [parseint_of_sscanf (sscanf_number hsrc hscan rfl)]
  . apply applyUnit_nul
  . decide
  . rfl

theorem parseint_unit {c : Char} (hsrc : src.chars = '=' :: s) (hscan : scanInt s = .item v rest)
    (hrest : rest.dropWhile isspace = [c]) : parseint src = applyUnit src (some (strtol v)) c := by
  apply parseint_of_sscanf (sscanf_unit hsrc hscan hrest)
  . decide
  . rfl

theorem parseint_cases (src : CString) :
    (∃ n e, SizeText n e src.chars) ∨ ∃ what, parseint src = .error (.syntaxError what) := by
  have hfits := src.fits
  by_cases hitem : ∃ s v rest, src.chars = '=' :: s ∧ scanInt s = .item v rest
  . obtain ⟨s, v, rest, hsrc, hscan⟩ := hitem
    obtain ⟨ws, n, hs, hws, rfl⟩ := exists_of_scanInt hscan
    have hlen := strlen_eq hsrc
    have hle := length_le_of_scanInt hscan
    cases hrest : rest.dropWhile isspace with
    | nil =>
      by_cases hnil : rest = []
      . subst hnil
        left
        refine ⟨n, 0, ?_⟩
        rw [hsrc, hs]
        exact ⟨ws, [], hws, .none, rfl⟩
      . right
        -- White space after the number is not counted by any `%n`.
        apply parseint_of_l
        rw [sscanf_number hsrc hscan hrest]
        have := List.length_pos_iff.mpr hnil
        simp only
        omega
    | cons c u =>
      have hspan := List.takeWhile_append_dropWhile (p := isspace) (l := rest)
      rw [hrest] at hspan
      by_cases hnil : u = []
      . subst hnil
        cases hunit : unitExponent c with
        | some e =>
          left
          refine ⟨n, e, ?_⟩
          rw [hsrc, hs, ← hspan]
          refine ⟨ws, _, hws, ?_, rfl⟩
          apply UnitText.unit _ _ _ _ hunit
          intro d hd
          exact List.mem_takeWhile_imp hd
        | none =>
          right
          rw [parseint_unit hsrc hscan hrest]
          apply applyUnit_error hunit
          apply src.nonzero
          rw [hsrc, hs, ← hspan]
          simp
      . right
        apply parseint_of_l
        rw [sscanf_unit hsrc hscan hrest]
        have := List.length_pos_iff.mpr hnil
        have : u.length ≤ rest.length := by
          rw [← hspan]
          simp only [List.length_append, List.length_cons]
          omega
        simp only
        omega
  . right
    apply parseint_of_l
    have hvars : (sscanf src parseintFormat parseintVars).2 = parseintVars := by
      apply sscanf_of_not_matches
      rintro s hsrc ⟨v, rest, hscan⟩
      exact hitem ⟨s, v, rest, hsrc, hscan⟩
    rw [hvars]
    unfold parseintVars CString.strlen
    simp only
    omega

theorem stops_of_unitText {tail : List Char} {e : Nat} (h : UnitText tail e) : Stops tail := by
  cases h with
  | none => apply stops_nil
  | unit ws c e hws hunit =>
    intro d hd
    have hd' : isspace d = true ∨ d = c := by
      cases ws with
      | nil =>
        cases hd
        exact .inr rfl
      | cons w ws =>
        cases hd
        exact .inl (hws _ List.mem_cons_self)
    cases hd' with
    | inl hspace =>
      have hle := toNat_le_of_isspace hspace
      refine ⟨?_, ?_, ?_⟩
      . rw [Bool.eq_false_iff]
        intro hdigit
        have := le_toNat_of_isDigit (Nat.le_refl 16) hdigit
        omega
      . rintro rfl
        contradiction
      . rintro rfl
        contradiction
    | inr heq =>
      subst heq
      have hall : ∀ u ∈ ['k', 'K', 'm', 'M', 'g', 'G'], isDigit 16 u = false ∧ u ≠ 'x' ∧ u ≠ 'X' :=
        List.all_iff_forall_prop.mp (by decide)
      exact hall d (mem_units_of_unitExponent hunit)

theorem parseint_text {n : Numeral} {e : Nat} (h : SizeText n e src.chars) :
    parseint src = .ok (longMul (strtol n.value) (1024 ^ e)) := by
  obtain ⟨ws, tail, hws, htail, hsrc⟩ := h
  have hscan := scanInt_text (n := n) hws (stops_of_unitText htail)
  cases htail with
  | none =>
    rw [parseint_number hsrc hscan]
    rw [Int.pow_zero, longMul, Int.mul_one, strtol_bmod]
  | unit ws' c e hws' hunit =>
    have hrest : (ws' ++ [c]).dropWhile isspace = [c] := by
      apply dropWhile_append_stop hws'
      intro d hd
      cases hd
      have hall : ∀ u ∈ ['k', 'K', 'm', 'M', 'g', 'G'], isspace u = false :=
        List.all_iff_forall_prop.mp (by decide)
      exact hall c (mem_units_of_unitExponent hunit)
    rw [parseint_unit hsrc hscan hrest]
    apply applyUnit_unit hunit

end Cases

theorem parseint_error {src : CString} {f : Failure} (h : parseint src = .error f) :
    ∃ what, f = .syntaxError what := by
  cases parseint_cases src with
  | inl hsize =>
    obtain ⟨n, e, hsize⟩ := hsize
    rw [parseint_text hsize] at h
    cases h
  | inr hwhat =>
    obtain ⟨what, hwhat⟩ := hwhat
    rw [hwhat] at h
    cases h
    exact ⟨what, rfl⟩

theorem sizeText_of_parseint {src : CString} {v : Int} (h : parseint src = .ok v) :
    ∃ n e, SizeText n e src.chars ∧ v = longMul (strtol n.value) (1024 ^ e) := by
  cases parseint_cases src with
  | inl hsize =>
    obtain ⟨n, e, hsize⟩ := hsize
    rw [parseint_text hsize] at h
    exact ⟨n, e, hsize, (Except.ok.inj h).symm⟩
  | inr hwhat =>
    obtain ⟨what, hwhat⟩ := hwhat
    rw [hwhat] at h
    cases h

theorem parseint_accepts_iff (src : CString) :
    ((∃ v, parseint src = .ok v) ↔ ∃ n e, SizeText n e src.chars) ∧
      ∀ f, parseint src = .error f → ∃ what, f = .syntaxError what := by
  constructor
  . constructor
    . rintro ⟨v, hv⟩
      obtain ⟨n, e, h, _⟩ := sizeText_of_parseint hv
      exact ⟨n, e, h⟩
    . rintro ⟨n, e, h⟩
      exact ⟨_, parseint_text h⟩
  . intro f hf
    exact parseint_error hf

end CommandLine
