import Buffer2.CommandLine.RequestSize
import Buffer2.CommandLine.RoundTrip
import Buffer2.Fifo.Construction
import Buffer2.Io.Basic
import Buffer2.Rounding.Binary64
import Buffer2.Workers.Basic

/-!
This module contains `main` as a whole: what happens until the workers run, and what the workers are
started with.

The `new` of the I/O objects, which are small, always succeeds here.
-/

namespace Program

open CommandLine Scanf
open Io (Interface)

def bufferAlignment : Nat := 2 ^ 14

/--
The machine and the answers of the system: the address of the memory for a vector of this many bytes, the
return codes of `pthread_mutex_init` and `pthread_create`, and the functions that resolve names. The addresses
in a vector and the one past its end do not wrap.
-/
structure Environment where
  fl : Rounding
  order : ByteOrder
  resolver : Tcpip.Resolver
  allocate : Nat → Except Exception Nat
  mutexInit : Int
  pthreadCreate : Int
  allocate_fits {size vector : Nat} : allocate size = .ok vector → vector + size < 2 ^ 32

inductive Ending
  | exits (code : Nat)
  | undefined
  deriving DecidableEq

-- The handlers at the end of `main`.

def handled (e : Exception) : Ending :=
  match e with
  | .runtime => .exits 29
  | .logic => .exits 19
  -- The base class of `interrupt_exception` is private.
  | .interrupt => .exits 28
  | .other => .exits 28

def handledFailure (f : Failure) : Ending :=
  match f with
  | .syntaxError _ => .exits 49
  | .invalidArgument _ => handled .logic
  | .undefined => .undefined

def handledUrl (f : Tcpip.Failure) : Ending :=
  match f with
  | .syntaxError _ => .exits 49
  | .osError _ _ => handled .runtime

def tcpipPrefix : List Char := ['t', 'c', 'p', 'i', 'p', ':', '/', '/']

-- `IInput::Factory` and `IOutput::Factory` differ in the class of the object only.
def factory (env : Environment) (src : CString) : Except Ending Interface :=
  if src.chars.take 8 = tcpipPrefix then
    ((Tcpip.parse env.order env.resolver (src.drop 8)).map .tcpip).mapError handledUrl
  else
    .ok (.file src)

structure Job where
  started : Started
  vector : Nat
  input : Interface
  output : Interface
  size_pos : 1 ≤ started.settings.config.bufferSize
  fits : vector + (started.settings.config.bufferSize.toNat + bufferAlignment) < 2 ^ 32
  high_le : started.highWaterMark ≤ started.settings.config.bufferSize.toNat
  low_le : started.lowWaterMark ≤ started.settings.config.bufferSize.toNat

namespace Job

def bufferSize (job : Job) : Nat := job.started.settings.config.bufferSize.toNat

def requestSize (job : Job) : Nat := job.started.settings.config.requestSize.toNat

theorem isPowerOfTwo_bufferAlignment : bufferAlignment.isPowerOfTwo := ⟨14, rfl⟩

def layout (job : Job) : Layout :=
  .construct job.vector job.bufferSize bufferAlignment job.started.highWaterMark job.started.lowWaterMark
    (by
      have := job.size_pos
      unfold bufferSize
      omega)
    isPowerOfTwo_bufferAlignment job.fits job.high_le job.low_le

def init (job : Job) (stream : List UInt8) : Workers job.layout := .init job.layout stream

def machine (job : Job) : Machine (Workers job.layout) (Choice ⊕ Choice) (Option (Operation × Event)) :=
  Workers.machine job.layout job.requestSize

end Job

section Bounds

variable {fl : Rounding} {args : List CString} {s : Settings} {t : Started}

theorem bufferSize_of_settings (h : settings fl args = .ok (some s)) :
    1 ≤ s.config.bufferSize ∧ s.config.bufferSize < 2 ^ 31 := by
  obtain ⟨c, hsettles⟩ := settings_cases h
  have hsize := hsettles.describes.bufferSize
  rw [hsettles.calculates.bufferSize]
  exact ⟨bufferSize_pos hsize, (bufferSize_fits hsize).2⟩

theorem waterMarks_of_construct (h : settings fl args = .ok (some s)) (hconstruct : construct fl s = .ok t) :
    t.settings = s ∧ t.lowWaterMark ≤ s.config.bufferSize.toNat ∧
      t.highWaterMark ≤ s.config.bufferSize.toNat := by
  obtain ⟨hpos, hlt⟩ := bufferSize_of_settings h
  obtain ⟨hsame, hlow, hhigh⟩ := construct_cases hconstruct
  have hlow := part2Bytes_le hpos hlt hlow
  have hhigh := part2Bytes_le hpos hlt hhigh
  exact ⟨hsame, by omega, by omega⟩

end Bounds

def start (env : Environment) (args : List CString) : Except Ending Job :=
  match hsettings : settings env.fl args with
  | .error f => .error (handledFailure f)
  | .ok none => .error (.exits 48)
  | .ok (some s) =>
    -- The buffer is the first member of the FIFO, the water marks follow it and the lock follows them.
    match hallocate : env.allocate (s.config.bufferSize.toNat + bufferAlignment) with
    | .error e => .error (handled e)
    | .ok vector =>
      match hconstruct : construct env.fl s with
      | .error f => .error (handledFailure f)
      | .ok t =>
        have hmarks := waterMarks_of_construct hsettings hconstruct
        if env.mutexInit ≠ 0 then
          .error (handled .runtime)
        else
          match factory env s.input, factory env s.output with
          | .error e, _ => .error e
          | .ok _, .error e => .error e
          | .ok input, .ok output =>
            if env.pthreadCreate ≠ 0 then
              .error (handled .runtime)
            else
              .ok
                { started := t
                  vector
                  input
                  output
                  size_pos := by
                    rw [hmarks.1]
                    exact (bufferSize_of_settings hsettings).1
                  fits := by
                    rw [hmarks.1]
                    exact env.allocate_fits hallocate
                  high_le := by
                    rw [hmarks.1]
                    exact hmarks.2.2
                  low_le := by
                    rw [hmarks.1]
                    exact hmarks.2.1 }

structure Starts (env : Environment) (args : List CString) (job : Job) : Prop where
  settings : settings env.fl args = .ok (some job.started.settings)
  allocate : env.allocate (job.bufferSize + bufferAlignment) = .ok job.vector
  construct : construct env.fl job.started.settings = .ok job.started
  mutexInit : env.mutexInit = 0
  input : factory env job.started.settings.input = .ok job.input
  output : factory env job.started.settings.output = .ok job.output
  pthreadCreate : env.pthreadCreate = 0

theorem start_cases {env : Environment} {args : List CString} {job : Job} (h : start env args = .ok job) :
    Starts env args job := by
  unfold start at h
  split at h
  . cases h
  . cases h
  next s hsettings =>
  split at h
  . cases h
  next vector hallocate =>
  split at h
  . cases h
  next t hconstruct =>
  obtain rfl := (construct_cases hconstruct).1
  dsimp only at h
  split at h
  . cases h
  next hmutex =>
  split at h
  . cases h
  . cases h
  next input output hinput houtput =>
  split at h
  . cases h
  next hthread =>
  cases h
  exact ⟨hsettings, hallocate, hconstruct, not_not.mp hmutex, hinput, houtput, not_not.mp hthread⟩

theorem start_of_starts {env : Environment} {args : List CString} {job : Job} (h : Starts env args job) :
    start env args = .ok job := by
  unfold start
  split
  next hsettings => simp [h.settings] at hsettings
  next hsettings => simp [h.settings] at hsettings
  next s hsettings =>
  rw [h.settings] at hsettings
  cases hsettings
  have hallocated := h.allocate
  split
  next hallocate => exact absurd (hallocate.symm.trans hallocated) nofun
  next vector hallocate =>
  cases hallocate.symm.trans hallocated
  split
  next hconstruct => simp [h.construct] at hconstruct
  next t hconstruct =>
  cases h.construct.symm.trans hconstruct
  dsimp only
  rw [if_neg (not_not.mpr h.mutexInit)]
  simp only [h.input, h.output]
  rw [if_neg (not_not.mpr h.pthreadCreate)]

section Examples

def plainSystem : Environment where
  fl := Binary64.rounding
  order := .little
  resolver :=
    { inetAddr := fun _ => Tcpip.inaddrNone
      gethostbyname := fun _ => .error 1
      getservbyname := fun _ => .error 1 }
  allocate size := if 4096 + size < 2 ^ 32 then .ok 4096 else .error .other
  mutexInit := 0
  pthreadCreate := 0
  allocate_fits h := by
    split at h
    . cases h
      assumption
    . cases h

def percentOption : CString where
  chars := ['-', 'l', '=', '3', '0', '%']
  nonzero := List.all_iff_forall_prop.mp (by decide)
  fits := by decide

def eightByteArgs : List CString :=
  Invocation.eightBytes.options ++ [percentOption, standardStream, standardStream]

def eightByteJob : Job where
  started :=
    { settings :=
        { input := standardStream
          output := standardStream
          config := { Config.initial with
            bufferSize := 8
            requestSize := 4
            pipeSize := 1
            iHighWaterMark := 8
            dHighWaterMark := .rat 1
            iLowWaterMark := 3
            dLowWaterMark := .rat (5404319552844595 / 18014398509481984)
            enableInputStats := true } }
      lowWaterMark := 2
      highWaterMark := 8 }
  vector := 4096
  input := .file standardStream
  output := .file standardStream
  size_pos := by decide
  fits := by decide
  high_le := by decide
  low_le := by decide

theorem start_eightByteArgs : start plainSystem eightByteArgs = .ok eightByteJob := by
  apply start_of_starts
  constructor
  . decide +kernel
  . have hfits : 4096 + (eightByteJob.bufferSize + bufferAlignment) < 2 ^ 32 := by decide
    simp only [plainSystem, hfits, if_true]
    rfl
  . decide +kernel
  . rfl
  . rfl
  . rfl
  . rfl

end Examples

end Program
