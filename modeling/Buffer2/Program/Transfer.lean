import Buffer2.Program.Basic
import Buffer2.Workers.Lengths

/-!
This module contains what `buffer2` does as a whole when nothing disturbs the workers: its exit code and
what it puts out, for every command line and every stream.
-/

namespace Program

open CommandLine

variable {env : Environment} {args : List CString} {job : Job} {stream out : List UInt8} {code : Nat}

/--
The program can exit with this code after it has put out these bytes. No I/O call fails, and no `Wait`.
-/
inductive Exits (env : Environment) (args : List CString) (stream : List UInt8) : Nat → List UInt8 → Prop
  | early {code : Nat} (h : start env args = .error (.exits code)) : Exits env args stream code []
  | late {job : Job} {tr : List ((Choice ⊕ Choice) × Option (Operation × Event))}
      {s : Workers job.layout} (h : start env args = .ok job)
      (hruns : job.machine.Runs Workers.Undisturbed (job.init stream) tr s) (hfin : s.Finished) :
      Exits env args stream s.exitValue s.right.accepted

theorem requestSize_pos_of_start (h : start env args = .ok job) :
    0 < job.requestSize ↔ GivesRequestSize args ∨ BufferOfFour args := by
  obtain ⟨c, hsettles⟩ := settings_cases (start_cases h).settings
  rw [← requestSize_pos_iff hsettles.describes hsettles.calculates]
  unfold Job.requestSize
  omega

theorem exits_of_start (h : start env args = .ok job) :
    Exits env args stream code out ↔ code = 0 ∧ out = if 0 < job.requestSize then stream else [] := by
  constructor
  . intro hexits
    cases hexits with
    | early hearly => simp [h] at hearly
    | late hlate hruns hfin =>
      obtain rfl : _ = job := Except.ok.inj (hlate.symm.trans h)
      exact Workers.accepted_of_undisturbed hruns hfin
  . rintro ⟨rfl, rfl⟩
    obtain ⟨tr, s, hruns, hfin⟩ := Workers.exists_finished job.layout job.requestSize stream
    obtain ⟨hexit, haccepted⟩ := Workers.accepted_of_undisturbed hruns hfin
    have hlate := Exits.late h hruns hfin
    rw [hexit, haccepted] at hlate
    exact hlate

theorem exits_of_error {e : Ending} (h : start env args = .error e) :
    Exits env args stream code out ↔ e = .exits code ∧ out = [] := by
  constructor
  . intro hexits
    cases hexits with
    | early hearly => exact ⟨Except.error.inj (h.symm.trans hearly), rfl⟩
    | late hlate => simp [h] at hlate
  . rintro ⟨rfl, rfl⟩
    exact .early h

def Ending.Early (e : Ending) : Prop := ∀ code, e = .exits code → code ∈ [19, 28, 29, 48, 49]

theorem early_handled (e : Exception) : (handled e).Early := by
  rintro code h
  cases e <;> cases h <;> decide

theorem early_handledFailure (f : Failure) : (handledFailure f).Early := by
  rintro code h
  cases f <;> cases h <;> decide

theorem early_handledUrl (f : Tcpip.Failure) : (handledUrl f).Early := by
  rintro code h
  cases f <;> cases h <;> decide

theorem early_factory {src : CString} {e : Ending} (h : factory env src = .error e) : e.Early := by
  unfold factory at h
  split at h
  . cases hparse : (Tcpip.parse env.order env.resolver (src.drop 8)).map Io.Interface.tcpip with
    | error f =>
      rw [hparse] at h
      cases h
      exact early_handledUrl f
    | ok i =>
      rw [hparse] at h
      cases h
  . cases h

theorem early_of_start {e : Ending} (h : start env args = .error e) : e.Early := by
  unfold start at h
  split at h
  next f _ =>
    cases h
    exact early_handledFailure f
  . cases h
    rintro code ⟨rfl⟩
    decide
  split at h
  next f _ =>
    cases h
    exact early_handled f
  split at h
  next f _ =>
    cases h
    exact early_handledFailure f
  dsimp only at h
  split at h
  . cases h
    exact early_handled _
  split at h
  next hinput =>
    cases h
    exact early_factory hinput
  next houtput =>
    cases h
    exact early_factory houtput
  split at h
  . cases h
    exact early_handled _
  . cases h

/--
Whether the stream is copied depends on the command line alone: when the buffer is smaller than 4 bytes and
there is no option `-r`, the exit code is 0 and the stream is lost.
-/
theorem exits_iff (env : Environment) (args : List CString) (stream out : List UInt8) (code : Nat) :
    Exits env args stream code out ↔
      ((∃ job, start env args = .ok job) ∧ code = 0 ∧
        ((GivesRequestSize args ∨ BufferOfFour args) ∧ out = stream ∨
          ¬ (GivesRequestSize args ∨ BufferOfFour args) ∧ out = [])) ∨
      (start env args = .error (.exits code) ∧ code ∈ [19, 28, 29, 48, 49] ∧ out = []) := by
  cases h : start env args with
  | ok job =>
    rw [exits_of_start h, ← requestSize_pos_of_start h]
    by_cases hsize : 0 < job.requestSize <;> simp [hsize]
  | error e =>
    have hearly := early_of_start h code
    rw [exits_of_error h]
    simp only [reduceCtorEq, exists_false, false_and, false_or, Except.error.injEq]
    constructor
    . rintro ⟨he, hout⟩
      exact ⟨he, hearly he, hout⟩
    . rintro ⟨he, _, hout⟩
      exact ⟨he, hout⟩

end Program
