import Buffer2.CommandLine.Marks
import Buffer2.CommandLine.Rounding
import Buffer2.Rounding.Binary64
import Buffer2.Scanf.Decimal

/-!
This module contains the command line that asks for given settings, and the proof that `main` arrives at
exactly these.
-/

namespace CommandLine

open Scanf

/--
What a user can ask for. The sizes fit into an `int`.
-/
structure Invocation where
  input : CString
  output : CString
  bufferSize : Fin (2 ^ 31)
  requestSize : Option (Fin (2 ^ 31))
  pipeSize : Fin (2 ^ 31)
  highWaterMark : Fin (2 ^ 31)
  lowWaterMark : Fin (2 ^ 31)
  enableCache : Bool
  enableInputStats : Bool
  enableOutputStats : Bool
  input_name : isOption input = false
  output_name : isOption output = false
  bufferSize_pos : 1 ≤ bufferSize.val
  requestSize_pos : ∀ n ∈ requestSize, 1 ≤ n.val
  pipeSize_pos : 1 ≤ pipeSize.val
  high_le : highWaterMark ≤ bufferSize
  low_le : lowWaterMark ≤ bufferSize

section Text

variable {fl : Rounding} {l : Char} {hl : l ≠ nul} {n : Fin (2 ^ 31)}

theorem ne_nul_of_mem_decimal {n : Nat} : ∀ c ∈ decimal n, c ≠ nul := by
  rintro c hc rfl
  have hdigit := (isDecimal_decimal n).valid nul hc
  revert hdigit
  decide

def numberOption (l : Char) (hl : l ≠ nul) (n : Fin (2 ^ 31)) : CString where
  chars := '-' :: l :: '=' :: decimal n
  nonzero := by
    intro c hc
    simp only [List.mem_cons] at hc
    obtain rfl | rfl | rfl | hc := hc
    . decide
    . exact hl
    . decide
    . exact ne_nul_of_mem_decimal c hc
  fits := by
    have hlen : (decimal n.val).length ≤ 10 := length_decimal_le (by decide) (by omega)
    simp only [List.length_cons]
    omega

def switch (l : Char) (which : List Char) (hl : l ≠ nul) (hwhich : ∀ c ∈ which, c ≠ nul)
    (hlen : which.length ≤ 1) : CString where
  chars := '-' :: l :: which
  nonzero := by
    intro c hc
    simp only [List.mem_cons] at hc
    obtain rfl | rfl | hc := hc
    . decide
    . exact hl
    . exact hwhich c hc
  fits := by
    simp only [List.length_cons]
    omega

def cacheOption : CString := switch 'c' [] (by decide) (by simp) (by decide)

def inputStatsOption : CString :=
  switch 's' ['i'] (by decide) (List.all_iff_forall_prop.mp (by decide)) (by decide)

def outputStatsOption : CString :=
  switch 's' ['o'] (by decide) (List.all_iff_forall_prop.mp (by decide)) (by decide)

theorem isOption_numberOption : isOption (numberOption l hl n) = true := by
  simp [isOption, numberOption, CString.charAt, hl]

theorem sizeText_numberOption (hl : l ≠ nul) (n : Fin (2 ^ 31)) :
    ∃ m : Numeral, m.value = n.val ∧ SizeText m 0 ((numberOption l hl n).drop 2).chars := by
  obtain ⟨m, htext, hvalue⟩ := (isDecimal_decimal n.val).exists_numeral
  exact ⟨m, hvalue, [], [], by simp, .none, by simp [numberOption, CString.drop, htext]⟩

theorem longMul_strtol (n : Fin (2 ^ 31)) : longMul (strtol n.val) (1024 ^ 0) = n.val := by
  rw [(longMul_eq_iff n.val 0).mpr]
  . simp
  . unfold FitsInt
    omega

theorem parseSize_numberOption (what : String) (hpos : 1 ≤ n.val) :
    parseSize what ((numberOption l hl n).drop 2) = .ok n.val := by
  obtain ⟨m, hvalue, htext⟩ := sizeText_numberOption hl n
  rw [parseSize_size what htext, hvalue, longMul_strtol, if_neg (by omega)]

theorem parseMark_numberOption {i : Int} :
    parseMark fl (numberOption l hl n) i = .ok (n.val, .rat (-1)) := by
  obtain ⟨m, hvalue, htext⟩ := sizeText_numberOption hl n
  rw [parseMark_size i htext, hvalue, longMul_strtol]

theorem denotes_numberOption : Denotes (numberOption l hl n) (.absolute n.val 0) := by
  obtain ⟨m, hvalue, htext⟩ := sizeText_numberOption hl n
  rw [← hvalue]
  exact .absolute m 0 htext

end Text

section Letters

variable {l k : Char} {hl : l ≠ nul} {n : Fin (2 ^ 31)}

@[simp]
theorem hasLetter_numberOption : hasLetter k (numberOption l hl n) = decide (l.toLower = k) := by
  unfold hasLetter letterOf
  rw [if_pos isOption_numberOption]
  simp [numberOption, CString.charAt]

@[simp]
theorem hasLetter_cacheOption : hasLetter k cacheOption = decide ('c' = k) := by
  unfold hasLetter
  rw [show letterOf cacheOption = some 'c' by decide]
  simp

@[simp]
theorem hasLetter_inputStatsOption : hasLetter k inputStatsOption = decide ('s' = k) := by
  unfold hasLetter
  rw [show letterOf inputStatsOption = some 's' by decide]
  simp

@[simp]
theorem hasLetter_outputStatsOption : hasLetter k outputStatsOption = decide ('s' = k) := by
  unfold hasLetter
  rw [show letterOf outputStatsOption = some 's' by decide]
  simp

@[simp]
theorem selects_numberOption (h : l.toLower ≠ 's') : selects k (numberOption l hl n) = false := by
  simp [selects, h]

@[simp]
theorem selects_cacheOption : selects k cacheOption = false := by
  simp [selects]

@[simp]
theorem selects_inputStatsOption : selects k inputStatsOption = decide ('i' = k) := by
  unfold selects
  rw [show hasLetter 's' inputStatsOption = true by decide]
  rw [show (inputStatsOption.charAt 2).toLower = 'i' by decide]
  simp [nul]

@[simp]
theorem selects_outputStatsOption : selects k outputStatsOption = decide ('o' = k) := by
  unfold selects
  rw [show hasLetter 's' outputStatsOption = true by decide]
  rw [show (outputStatsOption.charAt 2).toLower = 'o' by decide]
  simp [nul]

end Letters

namespace Invocation

variable {fl : Rounding} {v : Invocation} {args : List CString}

def options (v : Invocation) : List CString :=
  [numberOption 'b' (by decide) v.bufferSize] ++
    v.requestSize.toList.map (numberOption 'r' (by decide)) ++
    [numberOption 'p' (by decide) v.pipeSize] ++
    [numberOption 'h' (by decide) v.highWaterMark] ++
    [numberOption 'l' (by decide) v.lowWaterMark] ++
    (if v.enableCache then [cacheOption] else []) ++
    (if v.enableInputStats then [inputStatsOption] else []) ++
    (if v.enableOutputStats then [outputStatsOption] else [])

/--
The options in any order, and anywhere between and around the names.
-/
structure Asks (v : Invocation) (args : List CString) : Prop where
  options : (args.filter isOption).Perm v.options
  names : names args = [v.input, v.output]

def config (v : Invocation) : Config where
  bufferSize := v.bufferSize.val
  requestSize := (v.requestSize.map fun n => (n.val : Int)).getD (-1)
  pipeSize := v.pipeSize.val
  iHighWaterMark := v.highWaterMark.val
  dHighWaterMark := .rat (-1)
  iLowWaterMark := v.lowWaterMark.val
  dLowWaterMark := .rat (-1)
  enableCache := v.enableCache
  enableInputStats := v.enableInputStats
  enableOutputStats := v.enableOutputStats

def effective (v : Invocation) (fl : Rounding) : Effective where
  input := v.input
  output := v.output
  bufferSize := v.bufferSize.val
  requestSize := autoRequestSize v.bufferSize.val ((v.requestSize.map fun n => (n.val : Int)).getD (-1))
  pipeSize := v.pipeSize.val
  highWaterMark := fl.round (v.highWaterMark.val / v.bufferSize.val)
  lowWaterMark := fl.round (v.lowWaterMark.val / v.bufferSize.val)
  enableCache := v.enableCache
  enableInputStats := v.enableInputStats
  enableOutputStats := v.enableOutputStats

theorem filter_of_asks (h : v.Asks args) {p : CString → Bool}
    (hp : ∀ arg, p arg = true → isOption arg = true) : (args.filter p).Perm (v.options.filter p) := by
  have hfilter : args.filter p = (args.filter isOption).filter p := by
    rw [List.filter_filter]
    apply List.filter_congr
    intro arg _
    cases hparg : p arg with
    | false => simp
    | true => simp [hp arg hparg]
  rw [hfilter]
  exact h.options.filter p

theorem decided_of_asks {β : Type} (h : v.Asks args) {p : CString → Bool}
    (hp : ∀ arg, p arg = true → isOption arg = true) (f : CString → Except Failure β) (b : β) {r : β}
    (hoptions : v.options.filter p = [] ∧ r = b ∨ ∃ arg, v.options.filter p = [arg] ∧ f arg = .ok r) :
    Fold.decided p f b args = .ok r := by
  have hperm := filter_of_asks h hp
  unfold Fold.decided Fold.lastOf
  obtain ⟨hnone, rfl⟩ | ⟨arg, hone, hr⟩ := hoptions
  . rw [hnone, List.perm_nil] at hperm
    rw [hperm]
    rfl
  . rw [hone, List.perm_singleton] at hperm
    rw [hperm]
    exact hr

theorem isOption_of_selects {k : Char} {arg : CString} (h : selects k arg = true) : isOption arg = true := by
  simp only [selects, Bool.and_eq_true] at h
  exact (isOption_of_hasLetter h.1).1

theorem isOption_of_letter (l : Char) (arg : CString) (h : hasLetter l arg = true) : isOption arg = true :=
  (isOption_of_hasLetter h).1

theorem parsedMark_numberOption {l : Char} {hl : l ≠ nul} {n : Fin (2 ^ 31)} :
    parsedMark fl (numberOption l hl n) = .ok (.absolute n.val) :=
  parsedMark_of_parseMark (i := 0) parseMark_numberOption

theorem filter_if {p : CString → Bool} (b : Bool) (arg : CString) :
    (if b then [arg] else []).filter p = if p arg ∧ b then [arg] else [] := by
  cases b <;> simp [List.filter_cons]

theorem filter_hasLetter (v : Invocation) (l : Char) :
    v.options.filter (hasLetter l) =
      (if 'b' = l then [numberOption 'b' (by decide) v.bufferSize] else []) ++
      (if 'r' = l then v.requestSize.toList.map (numberOption 'r' (by decide)) else []) ++
      (if 'p' = l then [numberOption 'p' (by decide) v.pipeSize] else []) ++
      (if 'h' = l then [numberOption 'h' (by decide) v.highWaterMark] else []) ++
      (if 'l' = l then [numberOption 'l' (by decide) v.lowWaterMark] else []) ++
      (if 'c' = l ∧ v.enableCache then [cacheOption] else []) ++
      (if 's' = l ∧ v.enableInputStats then [inputStatsOption] else []) ++
      (if 's' = l ∧ v.enableOutputStats then [outputStatsOption] else []) := by
  have hrequest : (v.requestSize.toList.map (numberOption 'r' (by decide))).filter (hasLetter l) =
      if 'r' = l then v.requestSize.toList.map (numberOption 'r' (by decide)) else [] := by
    cases v.requestSize <;> simp [List.filter_cons]
  unfold options
  simp only [List.filter_append, List.filter_cons, List.filter_nil, hrequest, filter_if,
    hasLetter_numberOption, hasLetter_cacheOption, hasLetter_inputStatsOption,
    hasLetter_outputStatsOption, Char.reduceToLower, decide_eq_true_eq]

theorem filter_selects (v : Invocation) (l : Char) :
    v.options.filter (selects l) =
      (if 'i' = l ∧ v.enableInputStats then [inputStatsOption] else []) ++
      (if 'o' = l ∧ v.enableOutputStats then [outputStatsOption] else []) := by
  have hrequest : (v.requestSize.toList.map (numberOption 'r' (by decide))).filter (selects l) = [] := by
    cases v.requestSize <;> simp
  unfold options
  simp [List.filter_append, hrequest, filter_if]

theorem describes_of_asks (h : v.Asks args) : Describes fl args v.config where
  bufferSize := by
    apply decided_of_asks h (isOption_of_letter 'b')
    right
    refine ⟨numberOption 'b' (by decide) v.bufferSize, by simp [filter_hasLetter], ?_⟩
    exact parseSize_numberOption _ v.bufferSize_pos
  requestSize := by
    apply decided_of_asks h (isOption_of_letter 'r')
    cases hsize : v.requestSize with
    | none =>
      left
      simp [filter_hasLetter, config, hsize]
    | some n =>
      right
      refine ⟨numberOption 'r' (by decide) n, by simp [filter_hasLetter, hsize], ?_⟩
      simp only [config, hsize]
      exact parseSize_numberOption _ (v.requestSize_pos n hsize)
  pipeSize := by
    apply decided_of_asks h (isOption_of_letter 'p')
    right
    refine ⟨numberOption 'p' (by decide) v.pipeSize, by simp [filter_hasLetter], ?_⟩
    exact parseSize_numberOption _ v.pipeSize_pos
  highMark := by
    apply decided_of_asks h (isOption_of_letter 'h')
    right
    refine ⟨numberOption 'h' (by decide) v.highWaterMark, by simp [filter_hasLetter], ?_⟩
    exact parsedMark_numberOption
  lowMark := by
    apply decided_of_asks h (isOption_of_letter 'l')
    right
    refine ⟨numberOption 'l' (by decide) v.lowWaterMark, by simp [filter_hasLetter], ?_⟩
    exact parsedMark_numberOption
  enableCache := by
    apply decided_of_asks h (isOption_of_letter 'c')
    cases hcache : v.enableCache with
    | false =>
      left
      simp [filter_hasLetter, config, hcache]
    | true =>
      right
      exact ⟨cacheOption, by simp [filter_hasLetter, hcache], by simp [switchedOn, config, hcache]⟩
  enableInputStats := by
    apply decided_of_asks h (fun _ => isOption_of_selects)
    rw [filter_selects]
    cases hstats : v.enableInputStats with
    | false =>
      left
      simp [config, hstats]
    | true =>
      right
      exact ⟨inputStatsOption, by simp, by simp [switchedOn, config, hstats]⟩
  enableOutputStats := by
    apply decided_of_asks h (fun _ => isOption_of_selects)
    rw [filter_selects]
    cases hstats : v.enableOutputStats with
    | false =>
      left
      simp [config, hstats]
    | true =>
      right
      exact ⟨outputStatsOption, by simp, by simp [switchedOn, config, hstats]⟩

theorem accepts_of_mem {arg : CString} (h : arg ∈ v.options) : Accepts fl arg := by
  unfold options at h
  simp only [List.mem_append, List.mem_singleton, List.mem_map, Option.mem_toList,
    List.mem_ite_nil_right] at h
  obtain (((((((rfl | ⟨n, hn, rfl⟩) | rfl) | rfl) | rfl) | ⟨_, rfl⟩) | ⟨_, rfl⟩) | ⟨_, rfl⟩) := h
  . exact accepts_of_sets (.bufferSize _ rfl (parseSize_numberOption _ v.bufferSize_pos))
  . exact accepts_of_sets (.requestSize _ rfl (parseSize_numberOption _ (v.requestSize_pos n hn)))
  . exact accepts_of_sets (.pipeSize _ rfl (parseSize_numberOption _ v.pipeSize_pos))
  . exact accepts_of_sets (.highWaterMark _ _ rfl parseMark_numberOption)
  . exact accepts_of_sets (.lowWaterMark _ _ rfl parseMark_numberOption)
  . exact accepts_of_sets (.cache (by decide))
  . exact accepts_of_sets (.inputStats (by decide) (by decide))
  . exact accepts_of_sets (.outputStats (by decide) (by decide))

def settings (v : Invocation) (fl : Rounding) : Settings where
  input := v.input
  output := v.output
  config :=
    { v.config with
      dHighWaterMark := (v.effective fl).highWaterMark
      dLowWaterMark := (v.effective fl).lowWaterMark
      requestSize := (v.effective fl).requestSize }

theorem fraction_absolute (what : String) {n bufferSize : Fin (2 ^ 31)} (hle : n ≤ bufferSize) :
    (Mark.of n.val (.rat (-1))).fraction fl what bufferSize.val =
      .ok (fl.round (n.val / bufferSize.val)) := by
  have hneg : (Double.rat (-1)).lt 0 = true := by decide
  have hnot : ¬ (n.val : Int) > bufferSize.val := by omega
  unfold Mark.of Mark.fraction
  simp only [hneg, if_true, hnot, if_false]
  rfl

theorem settles_of_asks (fl : Rounding) (h : v.Asks args) : Settles fl args v.config (v.settings fl) where
  accepts arg harg hoption := by
    apply accepts_of_mem
    rw [← h.options.mem_iff]
    exact List.mem_filter.mpr ⟨harg, hoption⟩
  names := h.names
  describes := describes_of_asks h
  calculates :=
    { high := fraction_absolute highTooLarge v.high_le
      low := fraction_absolute lowTooLarge v.low_le
      rest := rfl }

theorem part2Bytes_fraction {n bufferSize : Fin (2 ^ 31)} (hpos : 1 ≤ bufferSize.val) (hle : n ≤ bufferSize) :
    part2Bytes fl bufferSize.val (fl.round (n.val / bufferSize.val)) = .ok n.val :=
  part2Bytes_absolute fl (by omega) (by omega) (by omega) (by omega)

/--
Whatever fits is reached exactly, in whatever order the options are given and however `double` rounds.
-/
theorem main_of_asks (fl : Rounding) (h : v.Asks args) :
    ∃ t, main fl args = .ok (some t) ∧ t.settings.effective = v.effective fl ∧
      t.highWaterMark = v.highWaterMark ∧ t.lowWaterMark = v.lowWaterMark := by
  obtain ⟨s, hsettings, heffective⟩ := settings_of_settles (settles_of_asks fl h)
  have hsize : s.config.bufferSize = v.bufferSize.val := congrArg Effective.bufferSize heffective
  have hhigh : s.config.dHighWaterMark = fl.round (v.highWaterMark.val / v.bufferSize.val) :=
    congrArg Effective.highWaterMark heffective
  have hlow : s.config.dLowWaterMark = fl.round (v.lowWaterMark.val / v.bufferSize.val) :=
    congrArg Effective.lowWaterMark heffective
  have hconstruct : construct fl s = .ok
      { settings := s, lowWaterMark := v.lowWaterMark, highWaterMark := v.highWaterMark } := by
    unfold construct
    rw [hsize, hhigh, hlow, part2Bytes_fraction v.bufferSize_pos v.low_le]
    rw [part2Bytes_fraction v.bufferSize_pos v.high_le]
    rfl
  rw [main_of_settings hsettings, hconstruct]
  exact ⟨_, rfl, heffective, rfl, rfl⟩

theorem isOption_of_mem {arg : CString} (h : arg ∈ v.options) : isOption arg = true := by
  unfold options at h
  simp only [List.mem_append, List.mem_singleton, List.mem_map, Option.mem_toList,
    List.mem_ite_nil_right] at h
  obtain (((((((rfl | ⟨n, hn, rfl⟩) | rfl) | rfl) | rfl) | ⟨_, rfl⟩) | ⟨_, rfl⟩) | ⟨_, rfl⟩) := h
  all_goals first | exact isOption_numberOption | decide

theorem asks_options (v : Invocation) : v.Asks (v.options ++ [v.input, v.output]) where
  options := by
    have hall : v.options.filter isOption = v.options :=
      List.filter_eq_self.mpr fun _ => isOption_of_mem
    rw [List.filter_append, hall]
    simp [v.input_name, v.output_name]
  names := by
    have hnone : names v.options = [] := by
      unfold CommandLine.names
      rw [List.filter_eq_nil_iff]
      intro arg harg
      simp [isOption_of_mem harg]
    unfold CommandLine.names at *
    rw [List.filter_append, hnone]
    simp [v.input_name, v.output_name]

def eightBytes : Invocation where
  input := standardStream
  output := standardStream
  bufferSize := 8
  requestSize := some 4
  pipeSize := 1
  highWaterMark := 8
  lowWaterMark := 3
  enableCache := false
  enableInputStats := true
  enableOutputStats := false
  input_name := by decide
  output_name := by decide
  bufferSize_pos := by decide
  requestSize_pos := by
    rintro n ⟨rfl⟩
    decide
  pipeSize_pos := by decide
  high_le := by decide
  low_le := by decide

theorem main_of_asks_eightBytes :
    ∃ t, main Binary64.rounding (eightBytes.options ++ [standardStream, standardStream]) = .ok (some t) ∧
      t.settings.effective = eightBytes.effective Binary64.rounding ∧
      t.highWaterMark = 8 ∧ t.lowWaterMark = 3 :=
  main_of_asks Binary64.rounding (asks_options eightBytes)

end Invocation

end CommandLine
