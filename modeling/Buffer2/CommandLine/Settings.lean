import Buffer2.CommandLine.Options

/-!
This module contains what the calculations after the argument loop make of its result, and the proof
that the settings depend on the last options only.
-/

namespace CommandLine

theorem parseSize_cases {what : String} {src : CString} {v : Int} (h : parseSize what src = .ok v) :
    parseint src = .ok v ∧ 1 ≤ v := by
  unfold parseSize at h
  obtain ⟨size, hsize, h⟩ := Fold.exists_of_bind_ok h
  by_cases hlt : size < 1
  . rw [if_pos hlt] at h
    cases h
  . rw [if_neg hlt] at h
    cases h
    exact ⟨hsize, by omega⟩

theorem bufferSize_pos {args : List CString} {v : Int}
    (h : Fold.decided (hasLetter 'b') parseBufferSize 65536 args = .ok v) : 1 ≤ v := by
  unfold Fold.decided at h
  split at h
  . rw [← Except.ok.inj h]
    decide
  . exact (parseSize_cases h).2

def highTooLarge : String := "The high water mark is larger than the buffer size."

def lowTooLarge : String := "The low water mark is larger than the buffer size."

def autoRequestSize (bufferSize requestSize : Int) : Int :=
  if requestSize < 0 then
    if bufferSize ≥ 1024 * 256 then bufferSize.tdiv 8 else bufferSize.tdiv 4
  else
    requestSize

structure Calculates (fl : Rounding) (c d : Config) : Prop where
  high : c.highMark.fraction fl highTooLarge c.bufferSize = .ok d.dHighWaterMark
  low : c.lowMark.fraction fl lowTooLarge c.bufferSize = .ok d.dLowWaterMark
  rest : d = { c with
    dHighWaterMark := d.dHighWaterMark
    dLowWaterMark := d.dLowWaterMark
    requestSize := autoRequestSize c.bufferSize c.requestSize }

theorem Calculates.bufferSize {fl : Rounding} {c d : Config} (h : Calculates fl c d) :
    d.bufferSize = c.bufferSize := by
  rw [h.rest]

theorem Calculates.requestSize {fl : Rounding} {c d : Config} (h : Calculates fl c d) :
    d.requestSize = autoRequestSize c.bufferSize c.requestSize := by
  rw [h.rest]

theorem calculations_eq (fl : Rounding) (c : Config) :
    calculations fl c =
      (c.highMark.fraction fl highTooLarge c.bufferSize).bind fun high =>
        (c.lowMark.fraction fl lowTooLarge c.bufferSize).map fun low =>
          { c with
            dHighWaterMark := high
            dLowWaterMark := low
            requestSize := autoRequestSize c.bufferSize c.requestSize } := by
  unfold calculations
  simp only [waterMark_eq]
  rfl

theorem calculations_cases {fl : Rounding} {c d : Config} (h : calculations fl c = .ok d) :
    Calculates fl c d := by
  rw [calculations_eq] at h
  obtain ⟨high, hhigh, h⟩ := Fold.exists_of_bind_ok h
  obtain ⟨low, hlow, rfl⟩ := Fold.exists_of_map_ok h
  constructor
  . exact hhigh
  . exact hlow
  . rfl

theorem calculations_of_calculates {fl : Rounding} {c d : Config} (h : Calculates fl c d) :
    calculations fl c = .ok d := by
  rw [calculations_eq, h.high]
  simp only [Except.bind]
  rw [h.low]
  exact congrArg Except.ok h.rest.symm

/--
The settings as the rest of `main` sees them. The variables for absolute water marks are not read
after the calculations.
-/
structure Effective where
  input : CString
  output : CString
  bufferSize : Int
  requestSize : Int
  pipeSize : Int
  highWaterMark : Double
  lowWaterMark : Double
  enableCache : Bool
  enableInputStats : Bool
  enableOutputStats : Bool

def Settings.effective (s : Settings) : Effective where
  input := s.input
  output := s.output
  bufferSize := s.config.bufferSize
  requestSize := s.config.requestSize
  pipeSize := s.config.pipeSize
  highWaterMark := s.config.dHighWaterMark
  lowWaterMark := s.config.dLowWaterMark
  enableCache := s.config.enableCache
  enableInputStats := s.config.enableInputStats
  enableOutputStats := s.config.enableOutputStats

structure Settles (fl : Rounding) (args : List CString) (c : Config) (s : Settings) : Prop where
  accepts (arg : CString) : arg ∈ args → isOption arg = true → Accepts fl arg
  names : names args = [s.input, s.output]
  describes : Describes fl args c
  calculates : Calculates fl c s.config

theorem settings_cases {fl : Rounding} {args : List CString} {s : Settings}
    (h : settings fl args = .ok (some s)) : ∃ c, Settles fl args c s := by
  unfold settings at h
  obtain ⟨t, hloop, h⟩ := Fold.exists_of_bind_ok h
  have hordered : Arguments.initial.Ordered := fun _ => rfl
  have haccepts := ((loop_ok_iff hordered).mp ⟨t, hloop⟩).1
  have htaken := (loop_names hloop hordered).2
  split at h
  . next input output hinput houtput =>
    obtain ⟨d, hcalc, h⟩ := Fold.exists_of_bind_ok h
    cases h
    refine ⟨t.config, haccepts, ?_, describes_of_loop hloop, calculations_cases hcalc⟩
    simp only [Arguments.taken, hinput, houtput] at htaken
    exact htaken.symm
  . cases h

structure Alike (c c' : Config) : Prop where
  bufferSize : c.bufferSize = c'.bufferSize
  requestSize : c.requestSize = c'.requestSize
  pipeSize : c.pipeSize = c'.pipeSize
  highMark : c.highMark = c'.highMark
  lowMark : c.lowMark = c'.lowMark
  enableCache : c.enableCache = c'.enableCache
  enableInputStats : c.enableInputStats = c'.enableInputStats
  enableOutputStats : c.enableOutputStats = c'.enableOutputStats

theorem Describes.alike {fl : Rounding} {args : List CString} {c c' : Config} (h : Describes fl args c)
    (h' : Describes fl args c') : Alike c c' where
  bufferSize := Except.ok.inj (h.bufferSize.symm.trans h'.bufferSize)
  requestSize := Except.ok.inj (h.requestSize.symm.trans h'.requestSize)
  pipeSize := Except.ok.inj (h.pipeSize.symm.trans h'.pipeSize)
  highMark := Except.ok.inj (h.highMark.symm.trans h'.highMark)
  lowMark := Except.ok.inj (h.lowMark.symm.trans h'.lowMark)
  enableCache := Except.ok.inj (h.enableCache.symm.trans h'.enableCache)
  enableInputStats := Except.ok.inj (h.enableInputStats.symm.trans h'.enableInputStats)
  enableOutputStats := Except.ok.inj (h.enableOutputStats.symm.trans h'.enableOutputStats)

theorem Calculates.of_alike {fl : Rounding} {c c' d : Config} (input output : CString) (h : Calculates fl c d)
    (halike : Alike c c') : ∃ d', Calculates fl c' d' ∧
      Settings.effective { input, output, config := d' } =
        Settings.effective { input, output, config := d } := by
  let d' : Config :=
    { c' with
      dHighWaterMark := d.dHighWaterMark
      dLowWaterMark := d.dLowWaterMark
      requestSize := autoRequestSize c'.bufferSize c'.requestSize }
  refine ⟨d', ?_, ?_⟩
  . constructor
    . rw [← halike.highMark, ← halike.bufferSize]
      exact h.high
    . rw [← halike.lowMark, ← halike.bufferSize]
      exact h.low
    . rfl
  . rw [h.rest]
    simp [d', Settings.effective, halike.bufferSize, halike.requestSize, halike.pipeSize,
      halike.enableCache, halike.enableInputStats, halike.enableOutputStats]

theorem settings_of_settles {fl : Rounding} {args : List CString} {c : Config} {s : Settings}
    (h : Settles fl args c s) :
    ∃ s', settings fl args = .ok (some s') ∧ s'.effective = s.effective := by
  have hordered : Arguments.initial.Ordered := fun _ => rfl
  obtain ⟨t, hloop⟩ : ∃ t, args.foldlM (argument fl) .initial = .ok t := by
    rw [loop_ok_iff hordered]
    refine ⟨h.accepts, ?_⟩
    rw [h.names]
    exact Nat.le_refl 2
  have htaken := (loop_names hloop hordered).2
  rw [h.names] at htaken
  have hnames := Arguments.of_taken htaken
  obtain ⟨d, hcalc, heffective⟩ := Calculates.of_alike s.input s.output h.calculates
    (h.describes.alike (describes_of_loop hloop))
  refine ⟨_, ?_, heffective⟩
  unfold settings
  rw [hloop]
  simp only [bind, Except.bind, hnames.1, hnames.2]
  rw [calculations_of_calculates hcalc]
  rfl

theorem construct_cases {fl : Rounding} {s : Settings} {t : Started} (h : construct fl s = .ok t) :
    t.settings = s ∧
      part2Bytes fl s.config.bufferSize s.config.dLowWaterMark = .ok t.lowWaterMark ∧
      part2Bytes fl s.config.bufferSize s.config.dHighWaterMark = .ok t.highWaterMark := by
  unfold construct at h
  obtain ⟨low, hlow, h⟩ := Fold.exists_of_bind_ok h
  obtain ⟨high, hhigh, h⟩ := Fold.exists_of_bind_ok h
  cases h
  exact ⟨rfl, hlow, hhigh⟩

theorem main_cases {fl : Rounding} {args : List CString} {t : Started} (h : main fl args = .ok (some t)) :
    settings fl args = .ok (some t.settings) ∧ construct fl t.settings = .ok t := by
  unfold main at h
  obtain ⟨r, hsettings, h⟩ := Fold.exists_of_bind_ok h
  cases r with
  | none => cases h
  | some s =>
    obtain ⟨u, hconstruct, h⟩ := Fold.exists_of_bind_ok h
    cases h
    have hsame := (construct_cases hconstruct).1
    rw [hsame]
    exact ⟨hsettings, hconstruct⟩

def standardStream : CString where
  chars := ['-']
  nonzero := List.all_iff_forall_prop.mp (by decide)
  fits := by decide

end CommandLine
