import Buffer2.CommandLine.Settings

/-!
This module contains the proofs that everything up to the construction of the FIFO fails with a syntax
error or not at all, but for percentages whose message has a malformed format.
-/

namespace CommandLine

open Scanf

def IsSyntaxError (f : Failure) : Prop := ∃ what, f = .syntaxError what

theorem sscanf_double {fl : Rounding} {src : CString} {s rest : List Char} {x : Double}
    (hsrc : src.chars = '=' :: s) (hscan : scanDouble s = .item x rest) :
    (sscanf src (parsedoubleFormat fl) parsedoubleVars).2.ret = some (fl.convert x) := by
  unfold sscanf parsedoubleFormat
  rw [hsrc]
  simp only [sscanfGo, hscan]
  rfl

theorem parsedouble_error (fl : Rounding) (src : CString) :
    Fold.FailsOnly IsSyntaxError (parsedouble fl src) := by
  intro f h
  unfold parsedouble at h
  simp only at h
  split at h
  . cases h
    exact ⟨_, rfl⟩
  . next hread =>
    by_cases hitem : ∃ s x rest, src.chars = '=' :: s ∧ scanDouble s = .item x rest
    . obtain ⟨s, x, rest, hsrc, hscan⟩ := hitem
      rw [sscanf_double hsrc hscan] at h
      cases h
    . have hvars : (sscanf src (parsedoubleFormat fl) parsedoubleVars).2 = parsedoubleVars := by
        apply sscanf_of_not_matches
        rintro s hsrc ⟨x, rest, hscan⟩
        exact hitem ⟨s, x, rest, hsrc, hscan⟩
      have hfits := src.fits
      rw [hvars] at hread
      unfold parsedoubleVars CString.strlen at hread
      simp only at hread
      omega

theorem parseint_fails (src : CString) : Fold.FailsOnly IsSyntaxError (parseint src) := by
  intro f h
  exact parseint_error h

theorem syntaxError_fails {α : Type} (what : String) :
    Fold.FailsOnly IsSyntaxError (.error (.syntaxError what) : Except Failure α) := by
  intro f h
  cases h
  exact ⟨what, rfl⟩

def percentage (cp : CString) : CString := (cp.cut (1 + (cp.drop 2).strlen)).drop 2

theorem parsePercentage_eq {fl : Rounding} {cp : CString} {x : Double}
    (h : parsedouble fl (percentage cp) = .ok x) : parsePercentage fl cp =
      if (fl.div x 100).lt 0 || (fl.div x 100).gt 100 then .error .undefined else .ok (fl.div x 100) := by
  unfold percentage at h
  unfold parsePercentage
  simp only [h]
  rfl

def IsMark (arg : CString) : Prop := hasLetter 'h' arg = true ∨ hasLetter 'l' arg = true

/--
A percentage that is refused without a message.
-/
structure Unreported (fl : Rounding) (arg : CString) : Prop where
  mark : IsMark arg
  relative : isRelative arg = true
  range : ∃ x, parsedouble fl (percentage arg) = .ok x ∧ ((fl.div x 100).lt 0 || (fl.div x 100).gt 100) = true

def IsRefusal (fl : Rounding) (arg : CString) (f : Failure) : Prop :=
  IsSyntaxError f ∨ f = .undefined ∧ Unreported fl arg

theorem parsePercentage_fails {fl : Rounding} {cp : CString} (hmark : IsMark cp)
    (hrelative : isRelative cp = true) : Fold.FailsOnly (IsRefusal fl cp) (parsePercentage fl cp) := by
  intro f h
  cases hx : parsedouble fl (percentage cp) with
  | error g =>
    unfold parsePercentage at h
    unfold percentage at hx
    simp only [hx] at h
    cases h
    exact .inl (parsedouble_error fl _ f hx)
  | ok x =>
    rw [parsePercentage_eq hx] at h
    split at h
    . next hrange =>
      cases h
      exact .inr ⟨rfl, hmark, hrelative, x, hx, hrange⟩
    . cases h

theorem parseMark_fails {fl : Rounding} {cp : CString} (hmark : IsMark cp) (i : Int) :
    Fold.FailsOnly (IsRefusal fl cp) (parseMark fl cp i) := by
  unfold parseMark
  split
  . next hpercent =>
    apply Fold.FailsOnly.map
    apply parsePercentage_fails hmark
    exact decide_eq_true hpercent
  . apply Fold.FailsOnly.map
    exact (parseint_fails _).mono fun f => .inl

theorem parseSize_fails (what : String) (src : CString) :
    Fold.FailsOnly IsSyntaxError (parseSize what src) := by
  unfold parseSize
  apply (parseint_fails src).bind
  intro size
  split
  . apply syntaxError_fails
  . apply Fold.FailsOnly.ok

theorem hasLetter_of_isOption {l : Char} {arg : CString} (hoption : isOption arg = true)
    (hletter : (arg.charAt 1).toLower = l) : hasLetter l arg = true := by
  simp [hasLetter, letterOf, hoption, hletter]

theorem parseoption_fails (fl : Rounding) (c : Config) {cp : CString} (hoption : isOption cp = true) :
    Fold.FailsOnly (IsRefusal fl cp) (parseoption fl c cp) := by
  have hthrown : ∀ f, IsSyntaxError f → IsRefusal fl cp f := fun f => .inl
  unfold parseoption
  split
  . exact ((parseSize_fails _ _).mono hthrown).map _
  . exact ((parseSize_fails _ _).mono hthrown).map _
  . exact ((parseSize_fails _ _).mono hthrown).map _
  . next hletter =>
    have hmark : IsMark cp := .inl (hasLetter_of_isOption hoption hletter)
    exact (parseMark_fails hmark _).map _
  . next hletter =>
    have hmark : IsMark cp := .inr (hasLetter_of_isOption hoption hletter)
    exact (parseMark_fails hmark _).map _
  . apply Fold.FailsOnly.ok
  . split
    . apply Fold.FailsOnly.ok
    . apply Fold.FailsOnly.ok
    . split
      . apply Fold.FailsOnly.ok
      . exact (syntaxError_fails _).mono hthrown
  . exact (syntaxError_fails _).mono hthrown

theorem argument_fails (fl : Rounding) (s : Arguments) (arg : CString) :
    Fold.FailsOnly (IsRefusal fl arg) (argument fl s arg) := by
  unfold argument
  split
  . next hoption => exact (parseoption_fails fl _ hoption).map _
  . split
    . apply Fold.FailsOnly.ok
    . split
      . apply Fold.FailsOnly.ok
      . exact (syntaxError_fails _).mono fun f => .inl

theorem argument_unreported {fl : Rounding} {arg : CString} (h : Unreported fl arg) (s : Arguments) :
    argument fl s arg = .error .undefined := by
  obtain ⟨x, hx, hrange⟩ := h.range
  have hpercent := of_decide_eq_true h.relative
  have hmark : ∀ i, parseMark fl arg i = .error .undefined := by
    intro i
    unfold parseMark
    rw [if_pos hpercent, parsePercentage_eq hx, if_pos hrange]
    rfl
  have hoption : isOption arg = true :=
    h.mark.elim (fun h => (isOption_of_hasLetter h).1) fun h => (isOption_of_hasLetter h).1
  unfold argument parseoption
  rw [if_pos hoption]
  cases h.mark with
  | inl h =>
    rw [(isOption_of_hasLetter h).2]
    simp only [hmark]
    rfl
  | inr h =>
    rw [(isOption_of_hasLetter h).2]
    simp only [hmark]
    rfl

theorem waterMark_fails (fl : Rounding) (what : String) (bufferSize i : Int) (d : Double) :
    Fold.FailsOnly IsSyntaxError (waterMark fl what bufferSize i d) := by
  unfold waterMark
  split
  . split
    . apply syntaxError_fails
    . apply Fold.FailsOnly.ok
  . apply Fold.FailsOnly.ok

theorem calculations_fails (fl : Rounding) (c : Config) :
    Fold.FailsOnly IsSyntaxError (calculations fl c) := by
  unfold calculations
  apply (waterMark_fails fl _ _ _ _).bind
  intro high
  apply (waterMark_fails fl _ _ _ _).bind
  intro low
  apply Fold.FailsOnly.ok

def ReachesUnreported (fl : Rounding) (args : List CString) : Prop :=
  ∃ pre arg post s, args = pre ++ arg :: post ∧ pre.foldlM (argument fl) .initial = .ok s ∧ Unreported fl arg

/--
Whatever the arguments are, the argument loop and the calculations throw nothing but `syntax_error`
unless a percentage is refused without a message.
-/
theorem settings_fails (fl : Rounding) (args : List CString) :
    Fold.FailsOnly (fun f => IsSyntaxError f ∨ f = .undefined ∧ ReachesUnreported fl args)
      (settings fl args) := by
  unfold settings
  apply Fold.FailsOnly.bind
  . intro f h
    obtain ⟨pre, arg, post, s, hsplit, hpre, harg⟩ := Fold.foldlM_error_iff.mp h
    cases argument_fails fl s arg f harg with
    | inl hthrown => exact .inl hthrown
    | inr hrange => exact .inr ⟨hrange.1, pre, arg, post, s, hsplit, hpre, hrange.2⟩
  . intro s
    split
    . apply Fold.FailsOnly.bind
      . exact (calculations_fails fl _).mono fun f => .inl
      . intro c
        apply Fold.FailsOnly.ok
    . apply Fold.FailsOnly.ok

theorem settings_unreported {fl : Rounding} {args : List CString} (h : ReachesUnreported fl args) :
    settings fl args = .error .undefined := by
  obtain ⟨pre, arg, post, s, hsplit, hpre, harg⟩ := h
  have hloop : args.foldlM (argument fl) .initial = .error .undefined :=
    Fold.foldlM_error_iff.mpr ⟨pre, arg, post, s, hsplit, hpre, argument_unreported harg s⟩
  unfold settings
  rw [hloop]
  rfl

end CommandLine
