import Buffer2.Machine.Basic
import Buffer2.Machine.Lock

/-!
This module contains the `Event` of the POSIX platforms in use by any number of threads.

The tests of `State` at the start of `Wait` and `Set` are made without the lock, so every access to
`State` is a step of its own. `Notification` is a condition variable bound to the lock: `Wait` releases
the lock and falls asleep at once, and requests the lock again before it returns. It may wake up without
a notification, and it may fail, in particular after the time that it has been given.
-/

namespace IPC

/--
What a thread is about to do in a call of `Wait`, `Set` or `Reset`. In `Notification::Wait` it is asleep,
or it has been notified, has woken up or has failed and requests the lock.
-/
inductive Pc
  | idle
  | waitTest
  | waitRequest
  | waitLoop
  | asleep
  | notified
  | woken
  | failed
  | waitRelease (result : Bool)
  | setTest
  | setRequest
  | setStore
  | setNotify
  | setRelease
  | resetRequest
  | resetStore
  | resetRelease
  deriving DecidableEq, Repr

namespace Pc

def notifyAll : Pc → Pc
  | .asleep => .notified
  | p => p

def inside : Pc → Bool
  | .waitLoop | .waitRelease _ => true
  | .setStore | .setNotify | .setRelease => true
  | .resetStore | .resetRelease => true
  | _ => false

def inSet : Pc → Bool
  | .setTest | .setRequest | .setStore | .setNotify | .setRelease => true
  | _ => false

end Pc

inductive Operation
  | wait
  | set
  | reset
  | go
  | wake
  | fail
  deriving DecidableEq, Repr

inductive Outcome
  | called
  | read (state : Bool)
  | locked
  | slept
  | woken
  | failed
  | stored (state : Bool)
  | notifiedAll
  | returned (result : Bool)
  | finished
  deriving DecidableEq, Repr

structure World (ι : Type) where
  state : Bool
  owner : Option ι
  pc : ι → Pc

namespace World

variable {ι : Type} [DecidableEq ι]

def init (ι : Type) : World ι where
  state := false
  owner := none
  pc _ := .idle

def goto (w : World ι) (t : ι) (p : Pc) : World ι :=
  { w with pc := Function.update w.pc t p }

def request (w : World ι) (t : ι) (p : Pc) : Option (World ι × Outcome) :=
  match w.owner with
  | none => some ({ w.goto t p with owner := some t }, .locked)
  | some _ => none

def release (w : World ι) (t : ι) (p : Pc) : World ι :=
  { w.goto t p with owner := none }

def store (w : World ι) (t : ι) (state : Bool) (p : Pc) : World ι :=
  { w.goto t p with state }

def notifyAll (w : World ι) (t : ι) (p : Pc) : World ι :=
  { w with pc := Function.update (fun u => (w.pc u).notifyAll) t p }

def go (w : World ι) (t : ι) : Option (World ι × Outcome) :=
  match w.pc t with
  | .idle => none
  | .waitTest =>
    if w.state then
      some (w.goto t .idle, .returned true)
    else
      some (w.goto t .waitRequest, .read false)
  | .waitRequest => w.request t .waitLoop
  | .waitLoop =>
    if w.state then
      some (w.goto t (.waitRelease true), .read true)
    else
      some (w.release t .asleep, .slept)
  | .asleep => none
  | .notified => w.request t .waitLoop
  | .woken => w.request t .waitLoop
  | .failed => w.request t (.waitRelease false)
  | .waitRelease result => some (w.release t .idle, .returned result)
  | .setTest =>
    if w.state then
      some (w.goto t .idle, .finished)
    else
      some (w.goto t .setRequest, .read false)
  | .setRequest => w.request t .setStore
  | .setStore => some (w.store t true .setNotify, .stored true)
  | .setNotify => some (w.notifyAll t .setRelease, .notifiedAll)
  | .setRelease => some (w.release t .idle, .finished)
  | .resetRequest => w.request t .resetStore
  | .resetStore => some (w.store t false .resetRelease, .stored false)
  | .resetRelease => some (w.release t .idle, .finished)

def step (w : World ι) (t : ι) (op : Operation) : Option (World ι × Outcome) :=
  match op with
  | .wait => if w.pc t = .idle then some (w.goto t .waitTest, .called) else none
  | .set => if w.pc t = .idle then some (w.goto t .setTest, .called) else none
  | .reset => if w.pc t = .idle then some (w.goto t .resetRequest, .called) else none
  | .go => w.go t
  | .wake => if w.pc t = .asleep then some (w.goto t .woken, .woken) else none
  | .fail => if w.pc t = .asleep then some (w.goto t .failed, .failed) else none

end World

structure Observation (ι : Type) where
  before : World ι
  outcome : Outcome
  after : World ι

def machine (ι : Type) [DecidableEq ι] : Machine (World ι) (ι × Operation) (Observation ι) where
  step w a := (w.step a.1 a.2).map fun (w', outcome) => (w', { before := w, outcome, after := w' })

abbrev Trace (ι : Type) := List ((ι × Operation) × Observation ι)

end IPC
