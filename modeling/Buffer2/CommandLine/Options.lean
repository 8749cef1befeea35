import Buffer2.CommandLine.Parseint
import Buffer2.Machine.Fold

/-!
This module contains everything that an option can do, and what the argument loop makes of all the
options: each part of the configuration is the work of the last option that writes to it.
-/

namespace CommandLine

open Scanf

/--
What a pair of variables says about a water mark: the fraction counts unless it is negative.
-/
inductive Mark
  | absolute (level : Int)
  | relative (part : Double)
  deriving DecidableEq

namespace Mark

def of (i : Int) (d : Double) : Mark := if d.lt 0 then .absolute i else .relative d

def fraction (m : Mark) (fl : Rounding) (what : String) (bufferSize : Int) : Except Failure Double :=
  match m with
  | .absolute i => if i > bufferSize then .error (.syntaxError what) else .ok (fl.round (i / bufferSize))
  | .relative d => .ok d

end Mark

theorem waterMark_eq (fl : Rounding) (what : String) (bufferSize i : Int) (d : Double) :
    waterMark fl what bufferSize i d = (Mark.of i d).fraction fl what bufferSize := by
  unfold waterMark Mark.of Mark.fraction
  cases d.lt 0 <;> rfl

def Config.highMark (c : Config) : Mark := .of c.iHighWaterMark c.dHighWaterMark

def Config.lowMark (c : Config) : Mark := .of c.iLowWaterMark c.dLowWaterMark

def isRelative (cp : CString) : Bool := cp.charAt (1 + (cp.drop 2).strlen) = '%'

def parsedMark (fl : Rounding) (cp : CString) : Except Failure Mark :=
  if isRelative cp then
    (parsePercentage fl cp).map .relative
  else
    (parseint (cp.drop 2)).map .absolute

theorem parsePercentage_ok {fl : Rounding} {cp : CString} {d : Double} (h : parsePercentage fl cp = .ok d) :
    d.lt 0 = false ∧ d.gt 100 = false := by
  unfold parsePercentage at h
  obtain ⟨x, _, h⟩ := Fold.exists_of_bind_ok h
  simp only at h
  cases hrange : (fl.div x 100).lt 0 || (fl.div x 100).gt 100 with
  | true =>
    rw [hrange] at h
    cases h
  | false =>
    rw [hrange] at h
    cases h
    rwa [Bool.or_eq_false_iff] at hrange

theorem map_parseMark (fl : Rounding) (cp : CString) (i : Int) :
    (parseMark fl cp i).map (fun r => Mark.of r.1 r.2) = parsedMark fl cp := by
  unfold parseMark parsedMark isRelative
  by_cases hpercent : cp.charAt (1 + (cp.drop 2).strlen) = '%'
  . simp only [hpercent, ↓reduceIte, decide_true]
    cases hd : parsePercentage fl cp with
    | error f => rfl
    | ok d =>
      have hlt := (parsePercentage_ok hd).1
      simp [Except.map, Mark.of, hlt]
  . simp only [hpercent, ↓reduceIte, decide_false, Bool.false_eq_true]
    cases parseint (cp.drop 2) with
    | error f => rfl
    | ok level => rfl

def letterOf (arg : CString) : Option Char :=
  if isOption arg then some (arg.charAt 1).toLower else none

def hasLetter (l : Char) (arg : CString) : Bool := letterOf arg = some l

def selects (l : Char) (arg : CString) : Bool :=
  hasLetter 's' arg && ((arg.charAt 2).toLower = l || (arg.charAt 2).toLower = nul)

inductive Sets (fl : Rounding) (c : Config) (cp : CString) : Config → Prop
  | bufferSize (v : Int) (hletter : (cp.charAt 1).toLower = 'b') (hv : parseBufferSize cp = .ok v) :
    Sets fl c cp { c with bufferSize := v }
  | requestSize (v : Int) (hletter : (cp.charAt 1).toLower = 'r') (hv : parseRequestSize cp = .ok v) :
    Sets fl c cp { c with requestSize := v }
  | pipeSize (v : Int) (hletter : (cp.charAt 1).toLower = 'p') (hv : parsePipeSize cp = .ok v) :
    Sets fl c cp { c with pipeSize := v }
  | highWaterMark (i : Int) (d : Double) (hletter : (cp.charAt 1).toLower = 'h')
      (hmark : parseMark fl cp c.iHighWaterMark = .ok (i, d)) :
    Sets fl c cp
      { c with
        iHighWaterMark := i
        dHighWaterMark := d }
  | lowWaterMark (i : Int) (d : Double) (hletter : (cp.charAt 1).toLower = 'l')
      (hmark : parseMark fl cp c.iLowWaterMark = .ok (i, d)) :
    Sets fl c cp
      { c with
        iLowWaterMark := i
        dLowWaterMark := d }
  | cache (hletter : (cp.charAt 1).toLower = 'c') : Sets fl c cp { c with enableCache := true }
  | inputStats (hletter : (cp.charAt 1).toLower = 's') (hwhich : (cp.charAt 2).toLower = 'i') :
    Sets fl c cp { c with enableInputStats := true }
  | outputStats (hletter : (cp.charAt 1).toLower = 's') (hwhich : (cp.charAt 2).toLower = 'o') :
    Sets fl c cp { c with enableOutputStats := true }
  | stats (hletter : (cp.charAt 1).toLower = 's') (hwhich : (cp.charAt 2).toLower = nul) :
    Sets fl c cp
      { c with
        enableInputStats := true
        enableOutputStats := true }

theorem parseoption_cases {fl : Rounding} {c c' : Config} {cp : CString} (h : parseoption fl c cp = .ok c') :
    Sets fl c cp c' := by
  unfold parseoption at h
  split at h
  . next hletter =>
    obtain ⟨v, hv, rfl⟩ := Fold.exists_of_map_ok h
    apply Sets.bufferSize
    . exact hletter
    . exact hv
  . next hletter =>
    obtain ⟨v, hv, rfl⟩ := Fold.exists_of_map_ok h
    apply Sets.requestSize
    . exact hletter
    . exact hv
  . next hletter =>
    obtain ⟨v, hv, rfl⟩ := Fold.exists_of_map_ok h
    apply Sets.pipeSize
    . exact hletter
    . exact hv
  . next hletter =>
    obtain ⟨⟨i, d⟩, hmark, rfl⟩ := Fold.exists_of_map_ok h
    apply Sets.highWaterMark
    . exact hletter
    . exact hmark
  . next hletter =>
    obtain ⟨⟨i, d⟩, hmark, rfl⟩ := Fold.exists_of_map_ok h
    apply Sets.lowWaterMark
    . exact hletter
    . exact hmark
  . next hletter =>
    cases h
    apply Sets.cache
    exact hletter
  . next hletter =>
    split at h
    . next hwhich =>
      cases h
      apply Sets.inputStats
      . exact hletter
      . exact hwhich
    . next hwhich =>
      cases h
      apply Sets.outputStats
      . exact hletter
      . exact hwhich
    . next d hi ho =>
      split at h
      . next hwhich =>
        cases h
        apply Sets.stats
        . exact hletter
        . exact hwhich
      . cases h
  . cases h

theorem parseoption_of_sets {fl : Rounding} {c c' : Config} {cp : CString} (h : Sets fl c cp c') :
    parseoption fl c cp = .ok c' := by
  unfold parseoption
  cases h with
  | bufferSize v hletter hv => simp [hletter, hv, Except.map]
  | requestSize v hletter hv => simp [hletter, hv, Except.map]
  | pipeSize v hletter hv => simp [hletter, hv, Except.map]
  | highWaterMark i d hletter hmark => simp [hletter, hmark, Except.map]
  | lowWaterMark i d hletter hmark => simp [hletter, hmark, Except.map]
  | cache hletter => simp [hletter]
  | inputStats hletter hwhich => simp [hletter, hwhich]
  | outputStats hletter hwhich => simp [hletter, hwhich]
  | stats hletter hwhich => simp [hletter, hwhich, nul]

inductive Takes (fl : Rounding) (s : Arguments) (arg : CString) : Arguments → Prop
  | option (config : Config) (hoption : isOption arg = true) (hsets : Sets fl s.config arg config) :
    Takes fl s arg { s with config }
  | input (hoption : isOption arg = false) (hinput : s.input = none) :
    Takes fl s arg { s with input := some arg }
  | output (hoption : isOption arg = false) (hinput : s.input ≠ none) (houtput : s.output = none) :
    Takes fl s arg { s with output := some arg }

theorem argument_cases {fl : Rounding} {s s' : Arguments} {arg : CString} (h : argument fl s arg = .ok s') :
    Takes fl s arg s' := by
  unfold argument at h
  split at h
  . next hoption =>
    obtain ⟨config, hconfig, rfl⟩ := Fold.exists_of_map_ok h
    apply Takes.option
    . exact hoption
    . exact parseoption_cases hconfig
  . next hoption =>
    simp only [Bool.not_eq_true] at hoption
    split at h
    . next hinput =>
      cases h
      apply Takes.input
      . exact hoption
      . exact hinput
    . next hinput =>
      split at h
      . next houtput =>
        cases h
        apply Takes.output
        . exact hoption
        . exact hinput
        . exact houtput
      . cases h

section Parts

variable {fl : Rounding} {args : List CString} {s s' : Arguments} {β : Type} (part : Config → β)
  {p : CString → Bool} {f : CString → Except Failure β}

theorem decided_of_loop (hp : ∀ arg, p arg = true → isOption arg = true)
    (hskip : ∀ c arg c', isOption arg = true → Sets fl c arg c' → p arg = false → part c' = part c)
    (hwrite : ∀ c arg c', Sets fl c arg c' → p arg = true → f arg = .ok (part c'))
    (h : args.foldlM (argument fl) s = .ok s') :
    Fold.decided p f (part s.config) args = .ok (part s'.config) := by
  apply Fold.foldlM_part (fun s => part s.config) _ _ h
  . intro s arg s' hstep hpart
    cases argument_cases hstep with
    | option config hoption hsets => exact hskip _ _ _ hoption hsets hpart
    | input => rfl
    | output => rfl
  . intro s arg s' hstep hpart
    have hoption := hp _ hpart
    cases argument_cases hstep with
    | option config _ hsets => exact hwrite _ _ _ hsets hpart
    | input hnot =>
      rw [hoption] at hnot
      cases hnot
    | output hnot =>
      rw [hoption] at hnot
      cases hnot

theorem isOption_of_hasLetter {l : Char} {arg : CString} (h : hasLetter l arg = true) :
    isOption arg = true ∧ (arg.charAt 1).toLower = l := by
  simpa [hasLetter, letterOf] using h

theorem decided_of_letter {l : Char}
    (hskip : ∀ c arg c', Sets fl c arg c' → (arg.charAt 1).toLower ≠ l → part c' = part c)
    (hwrite : ∀ c arg c', Sets fl c arg c' → (arg.charAt 1).toLower = l → f arg = .ok (part c'))
    (h : args.foldlM (argument fl) s = .ok s') :
    Fold.decided (hasLetter l) f (part s.config) args = .ok (part s'.config) := by
  apply decided_of_loop part _ _ _ h
  . intro arg harg
    exact (isOption_of_hasLetter harg).1
  . intro c arg c' hoption hsets harg
    apply hskip _ _ _ hsets
    intro hletter
    simp [hasLetter, letterOf, hoption, hletter] at harg
  . intro c arg c' hsets harg
    exact hwrite _ _ _ hsets (isOption_of_hasLetter harg).2

theorem decided_of_selects {l : Char}
    (hskip : ∀ c arg c', Sets fl c arg c' →
      ¬ ((arg.charAt 1).toLower = 's' ∧ ((arg.charAt 2).toLower = l ∨ (arg.charAt 2).toLower = nul)) →
      part c' = part c)
    (hwrite : ∀ c arg c', Sets fl c arg c' → (arg.charAt 1).toLower = 's' →
      (arg.charAt 2).toLower = l ∨ (arg.charAt 2).toLower = nul → f arg = .ok (part c'))
    (h : args.foldlM (argument fl) s = .ok s') :
    Fold.decided (selects l) f (part s.config) args = .ok (part s'.config) := by
  apply decided_of_loop part _ _ _ h
  . intro arg harg
    simp only [selects, Bool.and_eq_true] at harg
    exact (isOption_of_hasLetter harg.1).1
  . intro c arg c' hoption hsets harg
    apply hskip _ _ _ hsets
    rintro ⟨hletter, hwhich⟩
    simp [selects, hasLetter, letterOf, hoption, hletter] at harg
    exact hwhich.elim harg.1 harg.2
  . intro c arg c' hsets harg
    simp only [selects, Bool.and_eq_true, Bool.or_eq_true, decide_eq_true_eq] at harg
    exact hwrite _ _ _ hsets (isOption_of_hasLetter harg.1).2 harg.2

end Parts

def switchedOn (_ : CString) : Except Failure Bool := .ok true

structure Describes (fl : Rounding) (args : List CString) (c : Config) : Prop where
  bufferSize : Fold.decided (hasLetter 'b') parseBufferSize 65536 args = .ok c.bufferSize
  requestSize : Fold.decided (hasLetter 'r') parseRequestSize (-1) args = .ok c.requestSize
  pipeSize : Fold.decided (hasLetter 'p') parsePipeSize 8192 args = .ok c.pipeSize
  highMark : Fold.decided (hasLetter 'h') (parsedMark fl) (.absolute 0) args = .ok c.highMark
  lowMark : Fold.decided (hasLetter 'l') (parsedMark fl) (.relative (.rat 1)) args = .ok c.lowMark
  enableCache : Fold.decided (hasLetter 'c') switchedOn false args = .ok c.enableCache
  enableInputStats : Fold.decided (selects 'i') switchedOn false args = .ok c.enableInputStats
  enableOutputStats : Fold.decided (selects 'o') switchedOn false args = .ok c.enableOutputStats

theorem parsedMark_of_parseMark {fl : Rounding} {arg : CString} {i j : Int} {d : Double}
    (h : parseMark fl arg i = .ok (j, d)) : parsedMark fl arg = .ok (.of j d) := by
  rw [← map_parseMark fl arg i, h]
  rfl

theorem describes_of_loop {fl : Rounding} {args : List CString} {s : Arguments}
    (h : args.foldlM (argument fl) .initial = .ok s) : Describes fl args s.config where
  bufferSize := by
    apply decided_of_letter Config.bufferSize _ _ h
    . intro c arg c' hsets hletter
      cases hsets <;> first | rfl | contradiction
    . intro c arg c' hsets hletter
      cases hsets <;> simp_all
  requestSize := by
    apply decided_of_letter Config.requestSize _ _ h
    . intro c arg c' hsets hletter
      cases hsets <;> first | rfl | contradiction
    . intro c arg c' hsets hletter
      cases hsets <;> simp_all
  pipeSize := by
    apply decided_of_letter Config.pipeSize _ _ h
    . intro c arg c' hsets hletter
      cases hsets <;> first | rfl | contradiction
    . intro c arg c' hsets hletter
      cases hsets <;> simp_all
  highMark := by
    apply decided_of_letter Config.highMark _ _ h
    . intro c arg c' hsets hletter
      cases hsets <;> first | rfl | contradiction
    . intro c arg c' hsets hletter
      cases hsets with
      | highWaterMark i d _ hmark => exact parsedMark_of_parseMark hmark
      | _ => simp_all
  lowMark := by
    apply decided_of_letter Config.lowMark _ _ h
    . intro c arg c' hsets hletter
      cases hsets <;> first | rfl | contradiction
    . intro c arg c' hsets hletter
      cases hsets with
      | lowWaterMark i d _ hmark => exact parsedMark_of_parseMark hmark
      | _ => simp_all
  enableCache := by
    apply decided_of_letter Config.enableCache _ _ h
    . intro c arg c' hsets hletter
      cases hsets <;> first | rfl | contradiction
    . intro c arg c' hsets hletter
      cases hsets <;> simp_all [switchedOn]
  enableInputStats := by
    apply decided_of_selects Config.enableInputStats _ _ h
    . intro c arg c' hsets hnot
      cases hsets <;> simp_all
    . intro c arg c' hsets hletter hwhich
      cases hsets <;> simp_all [switchedOn, nul]
  enableOutputStats := by
    apply decided_of_selects Config.enableOutputStats _ _ h
    . intro c arg c' hsets hnot
      cases hsets <;> simp_all
    . intro c arg c' hsets hletter hwhich
      cases hsets <;> simp_all [switchedOn, nul]

def Accepts (fl : Rounding) (arg : CString) : Prop := ∃ c c', parseoption fl c arg = .ok c'

theorem parseMark_of_parseMark {fl : Rounding} {arg : CString} {i i' j : Int} {d : Double}
    (h : parseMark fl arg i = .ok (i', d)) : ∃ j', parseMark fl arg j = .ok (j', d) := by
  unfold parseMark at *
  split at h
  . next hpercent =>
    obtain ⟨x, hx, heq⟩ := Fold.exists_of_map_ok h
    cases heq
    rw [if_pos hpercent, hx]
    exact ⟨j, rfl⟩
  . next hpercent =>
    obtain ⟨v, hv, heq⟩ := Fold.exists_of_map_ok h
    cases heq
    rw [if_neg hpercent, hv]
    exact ⟨i', rfl⟩

theorem Accepts.ok {fl : Rounding} {arg : CString} (h : Accepts fl arg) (c : Config) :
    ∃ c', parseoption fl c arg = .ok c' := by
  obtain ⟨d, d', hd⟩ := h
  cases parseoption_cases hd with
  | bufferSize v hletter hv => exact ⟨_, parseoption_of_sets (.bufferSize v hletter hv)⟩
  | requestSize v hletter hv => exact ⟨_, parseoption_of_sets (.requestSize v hletter hv)⟩
  | pipeSize v hletter hv => exact ⟨_, parseoption_of_sets (.pipeSize v hletter hv)⟩
  | highWaterMark i d hletter hmark =>
    obtain ⟨j, hj⟩ := parseMark_of_parseMark (j := c.iHighWaterMark) hmark
    exact ⟨_, parseoption_of_sets (.highWaterMark j d hletter hj)⟩
  | lowWaterMark i d hletter hmark =>
    obtain ⟨j, hj⟩ := parseMark_of_parseMark (j := c.iLowWaterMark) hmark
    exact ⟨_, parseoption_of_sets (.lowWaterMark j d hletter hj)⟩
  | cache hletter => exact ⟨_, parseoption_of_sets (.cache hletter)⟩
  | inputStats hletter hwhich => exact ⟨_, parseoption_of_sets (.inputStats hletter hwhich)⟩
  | outputStats hletter hwhich => exact ⟨_, parseoption_of_sets (.outputStats hletter hwhich)⟩
  | stats hletter hwhich => exact ⟨_, parseoption_of_sets (.stats hletter hwhich)⟩

def names (args : List CString) : List CString := args.filter fun arg => !isOption arg

theorem names_cons (arg : CString) (args : List CString) :
    names (arg :: args) = names [arg] ++ names args := by
  unfold names
  rw [← List.filter_append]
  rfl

namespace Arguments

def taken (s : Arguments) : List CString := s.input.toList ++ s.output.toList

def Ordered (s : Arguments) : Prop := s.input = none → s.output = none

end Arguments

theorem Arguments.length_taken_le (s : Arguments) : s.taken.length ≤ 2 := by
  unfold Arguments.taken
  cases s.input <;> cases s.output <;> simp

theorem Arguments.of_taken {s : Arguments} {input output : CString} (h : s.taken = [input, output]) :
    s.input = some input ∧ s.output = some output := by
  unfold Arguments.taken at h
  cases hinput : s.input <;> cases houtput : s.output <;> simp_all

theorem argument_names {fl : Rounding} {s s' : Arguments} {arg : CString} (h : argument fl s arg = .ok s')
    (hs : s.Ordered) : s'.Ordered ∧ s'.taken = s.taken ++ names [arg] := by
  cases argument_cases h with
  | option config hoption => simp_all [names, Arguments.taken, Arguments.Ordered]
  | input hoption hinput => simp_all [names, Arguments.taken, Arguments.Ordered]
  | output hoption hinput houtput =>
    simp_all [names, Arguments.taken, Arguments.Ordered]

theorem loop_names {fl : Rounding} {s s' : Arguments} {args : List CString}
    (h : args.foldlM (argument fl) s = .ok s') (hs : s.Ordered) : s'.Ordered ∧ s'.taken = s.taken ++ names args := by
  induction args generalizing s with
  | nil =>
    cases h
    exact ⟨hs, by simp [names]⟩
  | cons arg args ih =>
    obtain ⟨t, hstep, hrest⟩ := Fold.foldlM_cons_ok.mp h
    obtain ⟨ht, htaken⟩ := argument_names hstep hs
    obtain ⟨hs', htaken'⟩ := ih hrest ht
    refine ⟨hs', ?_⟩
    rw [htaken', htaken, names_cons arg args, List.append_assoc]

theorem argument_ok_iff {fl : Rounding} {s : Arguments} {arg : CString} (hs : s.Ordered) :
    (∃ s', argument fl s arg = .ok s') ↔
      (isOption arg = true → Accepts fl arg) ∧ (s.taken ++ names [arg]).length ≤ 2 := by
  constructor
  . rintro ⟨s', hstep⟩
    constructor
    . intro hoption
      cases argument_cases hstep with
      | option config _ hsets => exact ⟨_, _, parseoption_of_sets hsets⟩
      | input hnot => simp_all
      | output hnot => simp_all
    . rw [← (argument_names hstep hs).2]
      apply Arguments.length_taken_le
  . rintro ⟨haccepts, hlen⟩
    unfold argument
    by_cases hoption : isOption arg = true
    . obtain ⟨c', hc'⟩ := (haccepts hoption).ok s.config
      rw [if_pos hoption, hc']
      exact ⟨_, rfl⟩
    . rw [if_neg hoption]
      cases hinput : s.input with
      | none => exact ⟨_, rfl⟩
      | some input =>
        cases houtput : s.output with
        | none => exact ⟨_, rfl⟩
        | some output => simp [Arguments.taken, names, hinput, houtput, hoption] at hlen

theorem loop_ok_iff {fl : Rounding} {s : Arguments} {args : List CString} (hs : s.Ordered) :
    (∃ s', args.foldlM (argument fl) s = .ok s') ↔
      (∀ arg ∈ args, isOption arg = true → Accepts fl arg) ∧ (s.taken ++ names args).length ≤ 2 := by
  induction args generalizing s with
  | nil =>
    constructor
    . intro _
      simpa [names] using s.length_taken_le
    . intro _
      exact ⟨s, rfl⟩
  | cons arg args ih =>
    rw [names_cons, ← List.append_assoc]
    constructor
    . rintro ⟨s', h⟩
      obtain ⟨t, hstep, hrest⟩ := Fold.foldlM_cons_ok.mp h
      obtain ⟨ht, htaken⟩ := argument_names hstep hs
      have harg := (argument_ok_iff hs).mp ⟨t, hstep⟩
      have hargs := (ih ht).mp ⟨s', hrest⟩
      rw [htaken] at hargs
      simp only [List.mem_cons, forall_eq_or_imp]
      exact ⟨⟨harg.1, hargs.1⟩, hargs.2⟩
    . rintro ⟨haccepts, hlen⟩
      simp only [List.mem_cons, forall_eq_or_imp] at haccepts
      have hfirst : (s.taken ++ names [arg]).length ≤ 2 := by
        rw [List.length_append] at hlen
        omega
      obtain ⟨t, hstep⟩ := (argument_ok_iff hs).mpr ⟨haccepts.1, hfirst⟩
      obtain ⟨ht, htaken⟩ := argument_names hstep hs
      rw [← htaken] at hlen
      obtain ⟨s', hrest⟩ := (ih ht).mpr ⟨haccepts.2, hlen⟩
      exact ⟨s', Fold.foldlM_cons_ok.mpr ⟨t, hstep, hrest⟩⟩

end CommandLine
