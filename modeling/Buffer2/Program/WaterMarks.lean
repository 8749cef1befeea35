import Buffer2.CommandLine.Levels
import Buffer2.Fifo.Wakeup
import Buffer2.Program.Basic

/-!
This module contains what the options `-h` and `-l` mean for the threads: the levels at which one of them
can be found asleep.
-/

namespace Program

open CommandLine

variable {env : Environment} {args : List CString} {job : Job} {high low : Level}

structure FinalMarks (args : List CString) (bufferSize : Int) (high low : Level) : Prop where
  last_high : LastMark 'h' (.absolute 0 0) args high
  last_low : LastMark 'l' (.relative 100) args low
  high_inRange : ¬ high.OutOfRange bufferSize
  low_inRange : ¬ low.OutOfRange bufferSize

theorem waterMarks_of_start (h : start env args = .ok job)
    (hmarks : FinalMarks args job.started.settings.config.bufferSize high low) :
    high.Bytes job.started.settings.config.bufferSize job.layout.highWaterMark ∧
      low.Bytes job.started.settings.config.bufferSize job.layout.lowWaterMark := by
  have hstarts := start_cases h
  obtain ⟨c, hsettles⟩ := settings_cases hstarts.settings
  obtain ⟨_, hlowBytes, hhighBytes⟩ := construct_cases hstarts.construct
  have hsize := hsettles.describes.bufferSize
  have hpos := bufferSize_pos hsize
  have hfits := bufferSize_fits hsize
  obtain ⟨hhigh, hlow, hhighRange, hlowRange⟩ := hmarks
  rw [hsettles.calculates.bufferSize] at hlowBytes hhighBytes hhighRange hlowRange ⊢
  have hhighMark := approximates_of_decided hhigh hhighRange rfl hsettles.describes.highMark
  have hlowMark := approximates_of_decided hlow hlowRange
    ⟨1, rfl, by norm_num, by norm_num, by norm_num⟩ hsettles.describes.lowMark
  constructor
  . exact bytes_of_approximates hhighMark hpos hfits hhighRange hsettles.calculates.high hhighBytes
  . exact bytes_of_approximates hlowMark hpos hfits hlowRange hsettles.calculates.low hlowBytes

theorem lastMark_default {l : Char} {default : Level} (h : ∀ arg ∈ args, hasLetter l arg = false) :
    LastMark l default args default := by
  have hnone : Fold.lastOf (hasLetter l) args = none := by
    unfold Fold.lastOf
    rw [List.getLast?_eq_none_iff, List.filter_eq_nil_iff]
    intro arg harg
    rw [h arg harg]
    decide
  unfold LastMark
  rw [hnone]

theorem finalMarks_default {bufferSize : Int} (hpos : 1 ≤ bufferSize)
    (hhigh : ∀ arg ∈ args, hasLetter 'h' arg = false) (hlow : ∀ arg ∈ args, hasLetter 'l' arg = false) :
    FinalMarks args bufferSize (.absolute 0 0) (.relative 100) where
  last_high := lastMark_default hhigh
  last_low := lastMark_default hlow
  high_inRange := by
    simp only [Level.OutOfRange]
    omega
  low_inRange := by norm_num [Level.OutOfRange]

section Levels

variable {stream : List UInt8} {tr : List ((Choice ⊕ Choice) × Option (Operation × Event))}
variable {s : Workers job.layout}

theorem sleep_of_runs (hruns : job.machine.Runs Machine.always (job.init stream) tr s) : s.shared.Sleep :=
  (World.sleep_init job.layout).runs (World.inv_init job.layout) hruns.calls

/--
A thread is only found asleep on its side of its water mark, or where it can do nothing.
-/
theorem level_of_asleep (h : start env args = .ok job)
    (hmarks : FinalMarks args job.started.settings.config.bufferSize high low)
    (hruns : job.machine.Runs Machine.always (job.init stream) tr s) :
    high.Bytes job.started.settings.config.bufferSize job.layout.highWaterMark ∧
    low.Bytes job.started.settings.config.bufferSize job.layout.lowWaterMark ∧
    (s.shared.source.sleeping = true → s.shared.fifo.eos = false ∧
      (s.shared.fifo.level < job.layout.highWaterMark ∨ s.shared.fifo.level = 0)) ∧
    (s.shared.drain.sleeping = true → s.shared.fifo.eos = false ∧
      (job.layout.lowWaterMark < s.shared.fifo.level ∨ s.shared.fifo.level = job.bufferSize)) := by
  have hsleep := sleep_of_runs hruns
  obtain ⟨hhigh, hlow⟩ := waterMarks_of_start h hmarks
  exact ⟨hhigh, hlow, hsleep.source, hsleep.drain⟩

/--
The defaults of the usage: the output thread never stops unless the buffer is empty, and the input thread
never stops unless the buffer is completely full.
-/
theorem level_of_asleep_default (h : start env args = .ok job)
    (hhigh : ∀ arg ∈ args, hasLetter 'h' arg = false) (hlow : ∀ arg ∈ args, hasLetter 'l' arg = false)
    (hruns : job.machine.Runs Machine.always (job.init stream) tr s) :
    (s.shared.source.sleeping = true → s.shared.fifo.level = 0) ∧
      (s.shared.drain.sleeping = true → s.shared.fifo.level = job.bufferSize) := by
  have hsleep := sleep_of_runs hruns
  have hle := ((World.inv_init job.layout).runs hruns.calls).fifo.level_le
  have hpos := job.size_pos
  obtain ⟨hhigh, hlow⟩ := waterMarks_of_start h (finalMarks_default hpos hhigh hlow)
  have hzero : job.layout.highWaterMark = 0 := by
    have hhigh : (job.layout.highWaterMark : Int) = 0 * 1024 ^ 0 := hhigh
    omega
  have hfull : (job.layout.lowWaterMark : Int) = job.started.settings.config.bufferSize := by
    simp only [Level.Bytes, div_self (show (100 : Rat) ≠ 0 by norm_num), mul_one, abs_le] at hlow
    have hlt : (job.layout.lowWaterMark : Rat) < (job.started.settings.config.bufferSize + 1 : Int) := by
      push_cast
      linarith [hlow.2]
    have hgt : (job.started.settings.config.bufferSize : Rat) < (job.layout.lowWaterMark + 1 : Int) := by
      push_cast
      linarith [hlow.1]
    rw [← Int.cast_natCast, Int.cast_lt] at hlt
    rw [Int.cast_lt] at hgt
    omega
  have hsame : job.layout.bufferSize = job.started.settings.config.bufferSize.toNat := rfl
  have hsame' : job.bufferSize = job.started.settings.config.bufferSize.toNat := rfl
  constructor
  . intro hasleep
    have := (hsleep.source hasleep).2
    omega
  . intro hasleep
    have := (hsleep.drain hasleep).2
    omega

end Levels

section Examples

open Workers

theorem denotes_percentOption : Denotes percentOption (.relative 30) :=
  denotes_of_any rfl (by decide +kernel)

theorem finalMarks_eightByteArgs : FinalMarks eightByteArgs 8 (.absolute 8 0) (.relative 30) where
  last_high := by
    unfold LastMark
    have hlast : Fold.lastOf (hasLetter 'h') eightByteArgs =
        some (numberOption 'h' (by decide) Invocation.eightBytes.highWaterMark) := rfl
    rw [hlast]
    exact denotes_numberOption
  last_low := by
    unfold LastMark
    have hlast : Fold.lastOf (hasLetter 'l') eightByteArgs = some percentOption := rfl
    rw [hlast]
    exact denotes_percentOption
  high_inRange := by norm_num [Level.OutOfRange]
  low_inRange := by norm_num [Level.OutOfRange]

def fourBytesIn : List (Choice ⊕ Choice) :=
  inputTurns [.run, .run, .byte, .byte, .byte, .byte, .run, .run]

/--
The output thread falls asleep first, is still asleep when there are 4 bytes, and is woken up by the next
four. The input thread falls asleep when the buffer is full, and is still asleep when there are 4 bytes.
-/
theorem level_of_asleep_eightBytes :
    ∃ tr s tr' s',
      eightByteJob.machine.Runs Machine.always (eightByteJob.init [1, 2, 3, 4, 5, 6, 7, 8]) tr s ∧
      eightByteJob.machine.Runs Machine.always (eightByteJob.init [1, 2, 3, 4, 5, 6, 7, 8]) tr' s' ∧
      s.shared.source.sleeping = true ∧ s.shared.fifo.level = 4 ∧ 4 < eightByteJob.layout.highWaterMark ∧
      s'.shared.drain.sleeping = true ∧ s'.shared.fifo.level = 4 ∧ eightByteJob.layout.lowWaterMark < 4 ∧
      (Level.absolute 8 0).Bytes 8 eightByteJob.layout.highWaterMark ∧
      (Level.relative 30).Bytes 8 eightByteJob.layout.lowWaterMark := by
  obtain ⟨tr, s, hruns, hs⟩ : ∃ tr s,
      eightByteJob.machine.Runs Machine.always (eightByteJob.init [1, 2, 3, 4, 5, 6, 7, 8]) tr s ∧
        s.shared.source.sleeping = true ∧ s.shared.fifo.level = 4 := by
    apply Machine.Runs.exists_of_acts (inputTurns [.run] ++ outputTurns [.run, .run, .run] ++ fourBytesIn)
    . exact fun _ _ _ => trivial
    . decide +kernel
  obtain ⟨tr', s', hruns', hs'⟩ : ∃ tr s,
      eightByteJob.machine.Runs Machine.always (eightByteJob.init [1, 2, 3, 4, 5, 6, 7, 8]) tr s ∧
        s.shared.drain.sleeping = true ∧ s.shared.fifo.level = 4 := by
    apply Machine.Runs.exists_of_acts
      (inputTurns [.run] ++ outputTurns [.run, .run, .run] ++ fourBytesIn ++ fourBytesIn ++
        inputTurns [.run, .run] ++ outputTurns [.run, .byte, .byte, .byte, .byte, .run, .run])
    . exact fun _ _ _ => trivial
    . decide +kernel
  obtain ⟨hhigh, hlow, hsource, _⟩ := level_of_asleep start_eightByteArgs finalMarks_eightByteArgs hruns
  obtain ⟨_, _, _, hdrain⟩ := level_of_asleep start_eightByteArgs finalMarks_eightByteArgs hruns'
  have hsource := (hsource hs.1).2
  have hdrain := (hdrain hs'.1).2
  rw [hs.2] at hsource
  rw [hs'.2] at hdrain
  exact ⟨tr, s, tr', s', hruns, hruns', hs.1, hs.2, hsource.resolve_right (by decide), hs'.1, hs'.2,
    hdrain.resolve_right (by decide), hhigh, hlow⟩

end Examples

end Program
