import Mathlib.Data.List.Perm.Basic
import Buffer2.CommandLine.Settings
import Buffer2.Rounding.Binary64

/-!
This module contains the proof that the order of the options does not matter as long as the options of
one letter keep theirs.
-/

namespace CommandLine

/--
`args'` is a permutation of `args` that keeps the order of the options with the same letter and the
order of the arguments that are no options.
-/
structure Reorders (args args' : List CString) : Prop where
  perm : args.Perm args'
  order (k : Option Char) :
    (args.filter fun arg => letterOf arg = k) = args'.filter fun arg => letterOf arg = k

/--
If one of the results is settings, so is the other one, and they are the same to the rest of `main`.
-/
structure Agree (r r' : Except Failure (Option Settings)) : Prop where
  left (s : Settings) : r = .ok (some s) → ∃ s', r' = .ok (some s') ∧ s'.effective = s.effective
  right (s : Settings) : r' = .ok (some s) → ∃ s', r = .ok (some s') ∧ s'.effective = s.effective

structure Follows (fl : Rounding) (args args' : List CString) : Prop where
  accepts : (∀ arg ∈ args, isOption arg = true → Accepts fl arg) →
    ∀ arg ∈ args', isOption arg = true → Accepts fl arg
  names : names args = names args'
  describes (c : Config) : Describes fl args c → Describes fl args' c

theorem Follows.settings {fl : Rounding} {args args' : List CString} {s : Settings}
    (h : Follows fl args args') (hs : settings fl args = .ok (some s)) :
    ∃ s', CommandLine.settings fl args' = .ok (some s') ∧ s'.effective = s.effective := by
  obtain ⟨c, hsettles⟩ := settings_cases hs
  apply settings_of_settles (c := c)
  constructor
  . exact h.accepts hsettles.accepts
  . rw [← h.names]
    exact hsettles.names
  . exact h.describes c hsettles.describes
  . exact hsettles.calculates

theorem Describes.congr {fl : Rounding} {args args' : List CString} {c : Config} (h : Describes fl args c)
    (hletter : ∀ {β : Type} (l : Char) (f : CString → Except Failure β) (b : β),
      Fold.decided (hasLetter l) f b args = Fold.decided (hasLetter l) f b args')
    (hselects : ∀ (l : Char) (f : CString → Except Failure Bool) (b : Bool),
      Fold.decided (selects l) f b args = Fold.decided (selects l) f b args') : Describes fl args' c where
  bufferSize := by
    rw [← hletter]
    exact h.bufferSize
  requestSize := by
    rw [← hletter]
    exact h.requestSize
  pipeSize := by
    rw [← hletter]
    exact h.pipeSize
  highMark := by
    rw [← hletter]
    exact h.highMark
  lowMark := by
    rw [← hletter]
    exact h.lowMark
  enableCache := by
    rw [← hletter]
    exact h.enableCache
  enableInputStats := by
    rw [← hselects]
    exact h.enableInputStats
  enableOutputStats := by
    rw [← hselects]
    exact h.enableOutputStats

namespace Reorders

variable {args args' : List CString}

theorem symm (h : Reorders args args') : Reorders args' args where
  perm := h.perm.symm
  order k := (h.order k).symm

theorem swap {x y : CString} {args : List CString} (hne : letterOf x ≠ letterOf y) :
    Reorders (x :: y :: args) (y :: x :: args) where
  perm := .swap y x args
  order k := by
    simp only [List.filter_cons]
    by_cases hx : letterOf x = k
    . have hy : letterOf y ≠ k := by
        rw [← hx]
        exact hne.symm
      simp [hx, hy]
    . simp [hx]

theorem filter_hasLetter (h : Reorders args args') (l : Char) :
    args.filter (hasLetter l) = args'.filter (hasLetter l) :=
  h.order (some l)

theorem filter_selects (h : Reorders args args') (l : Char) :
    args.filter (selects l) = args'.filter (selects l) := by
  have hsplit : ∀ xs : List CString, xs.filter (selects l) =
      (xs.filter (hasLetter 's')).filter fun arg =>
        (arg.charAt 2).toLower = l || (arg.charAt 2).toLower = nul := by
    intro xs
    rw [List.filter_filter]
    apply List.filter_congr
    intro arg _
    rw [selects, Bool.and_comm]
  rw [hsplit, hsplit, h.filter_hasLetter]

theorem names_eq (h : Reorders args args') : names args = names args' := by
  have hnone : ∀ xs : List CString, names xs = xs.filter fun arg => letterOf arg = none := by
    intro xs
    apply List.filter_congr
    intro arg _
    unfold letterOf
    cases isOption arg <;> simp
  rw [hnone, hnone, h.order]

theorem follows (fl : Rounding) (h : Reorders args args') : Follows fl args args' where
  accepts haccepts arg harg := by
    apply haccepts
    exact h.perm.mem_iff.mpr harg
  names := h.names_eq
  describes c hc := by
    apply hc.congr
    . intro β l f b
      exact Fold.decided_congr (h.filter_hasLetter l) f b
    . intro l f b
      exact Fold.decided_congr (h.filter_selects l) f b

end Reorders

/--
An option of a letter whose last option decides, before another one of this letter.
-/
structure Overridden (arg : CString) (post : List CString) : Prop where
  letter : ∃ l ∈ ['b', 'r', 'p', 'h', 'l'], letterOf arg = some l
  later : ∃ arg' ∈ post, letterOf arg' = letterOf arg

theorem Overridden.follows (fl : Rounding) {pre post : List CString} {arg : CString}
    (h : Overridden arg post) : Follows fl (pre ++ arg :: post) (pre ++ post) where
  accepts haccepts arg' harg' := by
    apply haccepts
    simp only [List.mem_append, List.mem_cons] at *
    exact harg'.imp_right .inr
  names := by
    obtain ⟨l, _, hl⟩ := h.letter
    have hoption : isOption arg = true := by
      apply (isOption_of_hasLetter (l := l) _).1
      simp [hasLetter, hl]
    simp [CommandLine.names, hoption]
  describes c hc := by
    obtain ⟨arg', hmem, hsame⟩ := h.later
    apply hc.congr
    . intro β l f b
      apply Fold.decided_append_cons
      intro harg
      refine ⟨arg', hmem, ?_⟩
      unfold hasLetter at *
      rw [hsame]
      exact harg
    . intro l f b
      apply Fold.decided_append_cons
      intro harg
      obtain ⟨k, hk, hkl⟩ := h.letter
      simp only [selects, hasLetter, hkl, Bool.and_eq_true, decide_eq_true_eq, Option.some.injEq] at harg
      rw [harg.1] at hk
      simp at hk

theorem options_commute (fl : Rounding) :
    (∀ args args', Reorders args args' → Agree (settings fl args) (settings fl args')) ∧
      (∀ args s, settings fl args = .ok (some s) → ∃ c, Settles fl args c s) ∧
      (∀ args c s, Settles fl args c s →
        ∃ s', settings fl args = .ok (some s') ∧ s'.effective = s.effective) ∧
      ∀ pre arg post s, Overridden arg post → settings fl (pre ++ arg :: post) = .ok (some s) →
        ∃ s', settings fl (pre ++ post) = .ok (some s') ∧ s'.effective = s.effective := by
  refine ⟨?_, ?_, ?_, ?_⟩
  . intro args args' h
    constructor
    . intro s hs
      exact (h.follows fl).settings hs
    . intro s hs
      exact (h.symm.follows fl).settings hs
  . intro args s hs
    exact settings_cases hs
  . intro args c s h
    exact settings_of_settles h
  . intro pre arg post s h hs
    exact (h.follows fl).settings hs

def bufferOption : CString where
  chars := ['-', 'b', '=', '8']
  nonzero := List.all_iff_forall_prop.mp (by decide)
  fits := by decide

def percentOption : CString where
  chars := ['-', 'h', '=', '5', '0', '%']
  nonzero := List.all_iff_forall_prop.mp (by decide)
  fits := by decide

def absoluteOption : CString where
  chars := ['-', 'H', '=', '4']
  nonzero := List.all_iff_forall_prop.mp (by decide)
  fits := by decide

def mixedOptions : List CString := [absoluteOption, percentOption, standardStream, standardStream]

theorem settings_mixedOptions :
    ∃ s, settings Binary64.rounding mixedOptions = .ok (some s) ∧ s.config.dHighWaterMark = .rat (1 / 2) := by
  have hrun : (settings Binary64.rounding mixedOptions).toOption.any
      (Option.any fun s => decide (s.config.dHighWaterMark = .rat (1 / 2))) = true := by decide +kernel
  obtain ⟨o, hs, hany⟩ := Fold.exists_of_any hrun
  obtain ⟨s, rfl, hhalf⟩ := (Option.any_eq_true _ _).mp hany
  exact ⟨s, hs, of_decide_eq_true hhalf⟩

theorem options_commute_eightBytes :
    Agree (settings Binary64.rounding [bufferOption, absoluteOption, standardStream, standardStream])
        (settings Binary64.rounding [absoluteOption, bufferOption, standardStream, standardStream]) ∧
      ∃ s c s', settings Binary64.rounding mixedOptions = .ok (some s) ∧
        s.config.dHighWaterMark = .rat (1 / 2) ∧ Settles Binary64.rounding mixedOptions c s ∧
        settings Binary64.rounding [percentOption, standardStream, standardStream] = .ok (some s') ∧
          s'.effective = s.effective := by
  obtain ⟨hreorder, hsettles, _, hlast⟩ := options_commute Binary64.rounding
  constructor
  . apply hreorder
    apply Reorders.swap
    decide
  . have hoverridden : Overridden absoluteOption [percentOption, standardStream, standardStream] := by
      constructor
      . exact ⟨'h', by decide, rfl⟩
      . exact ⟨percentOption, by simp, rfl⟩
    obtain ⟨s, hs, hhalf⟩ := settings_mixedOptions
    obtain ⟨c, hc⟩ := hsettles _ s hs
    obtain ⟨s', hs', heq⟩ := hlast [] absoluteOption _ s hoverridden hs
    exact ⟨s, c, s', hs, hhalf, hc, hs', heq⟩

end CommandLine
