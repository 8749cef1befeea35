import Buffer2.Machine.Basic
import Buffer2.Fifo.Basic

/-!
This module contains a `StaticFIFO` in use by two threads, one for each interface: the drain thread
writes, the source thread reads.

The lock is held during all of an operation but for the tests at the start of the requests, so the
operations are atomic steps. `NotifyDrain` and `NotifySource` are condition variables bound to the
lock: `Wait` releases it and falls asleep at once, and a thread that has been notified goes on with
the next pass of its loop once it has the lock again. It may also wake up without a notification, and
`Wait` may fail, which ends the request with `len = 0`.
-/

/--
What a thread is doing: nothing, holding the range a request returned, or being inside of a request
for `len` bytes, before its first pass, in `Wait`, or in `Wait` but notified.
-/
inductive Call
  | idle
  | holding (data len : Nat)
  | entering (len : Nat)
  | asleep (len : Nat)
  | notified (len : Nat)
  deriving DecidableEq, Repr

namespace Call

def free : Call → Bool
  | .idle => true
  | .holding _ _ => true
  | _ => false

def ready : Call → Option Nat
  | .entering len => some len
  | .notified len => some len
  | _ => none

def waiting : Call → Option Nat
  | .asleep len => some len
  | .notified len => some len
  | _ => none

def pending : Call → Option Nat
  | .entering len => some len
  | .asleep len => some len
  | .notified len => some len
  | _ => none

def notifyAll : Call → Call
  | .asleep len => .notified len
  | call => call

def notifyIf (notify : Bool) (call : Call) : Call :=
  if notify then call.notifyAll else call

@[simp]
theorem free_notifyAll (call : Call) : call.notifyAll.free = call.free := by
  cases call <;> rfl

@[simp]
theorem pending_notifyAll (call : Call) : call.notifyAll.pending = call.pending := by
  cases call <;> rfl

@[simp]
theorem notifyAll_eq_idle {call : Call} : call.notifyAll = .idle ↔ call = .idle := by
  cases call <;> simp [notifyAll]

@[simp]
theorem notifyAll_eq_holding {call : Call} {data len : Nat} :
    call.notifyAll = .holding data len ↔ call = .holding data len := by
  cases call <;> simp [notifyAll]

@[simp]
theorem free_notifyIf (notify : Bool) (call : Call) : (call.notifyIf notify).free = call.free := by
  cases notify <;> simp [notifyIf]

@[simp]
theorem pending_notifyIf (notify : Bool) (call : Call) :
    (call.notifyIf notify).pending = call.pending := by
  cases notify <;> simp [notifyIf]

@[simp]
theorem notifyIf_eq_idle {notify : Bool} {call : Call} :
    call.notifyIf notify = .idle ↔ call = .idle := by
  cases notify <;> simp [notifyIf]

@[simp]
theorem notifyIf_eq_holding {notify : Bool} {call : Call} {data len : Nat} :
    call.notifyIf notify = .holding data len ↔ call = .holding data len := by
  cases notify <;> simp [notifyIf]

theorem pending_of_ready {call : Call} {len : Nat} (h : call.ready = some len) :
    call.pending = some len := by
  cases call <;> simp_all [ready, pending]

end Call

inductive Side
  | drain
  | source
  deriving DecidableEq, Repr

inductive Operation
  | requestWrite (len : Nat)
  | passWrite
  | wakeWrite
  | failWrite
  | store (addr : Nat) (b : UInt8)
  | commitWrite (data len : Nat)
  | endWrite
  | requestRead (len : Nat)
  | passRead
  | wakeRead
  | failRead
  | commitRead (data len : Nat)
  | endRead
  deriving DecidableEq, Repr

def Operation.side : Operation → Side
  | .requestWrite _ | .passWrite | .wakeWrite | .failWrite => .drain
  | .store _ _ | .commitWrite _ _ | .endWrite => .drain
  | .requestRead _ | .passRead | .wakeRead | .failRead => .source
  | .commitRead _ _ | .endRead => .source

/--
What a thread sees of its step. A commit shows the bytes that it hands over.
-/
inductive Event
  | threw (e : LogicError)
  | entered
  | granted (data len : Nat)
  | ended
  | slept
  | woken
  | stored
  | wrote (bytes : List UInt8)
  | took (bytes : List UInt8)
  | closed
  deriving DecidableEq, Repr

structure World (c : Layout) where
  fifo : StaticFIFO c
  drain : Call
  source : Call

namespace World

variable {c : Layout}

def init (c : Layout) : World c where
  fifo := .init c
  drain := .idle
  source := .idle

def requestWrite (w : World c) (len : Nat) : World c × Event :=
  match w.fifo.requestWriteTest with
  | .error e => (w, .threw e)
  | .ok () => ({ w with drain := .entering len }, .entered)

def passWrite (w : World c) (len : Nat) : World c × Event :=
  match w.fifo.requestWritePass len with
  | (.granted data n, fifo) => ({ w with fifo, drain := .holding data n }, .granted data n)
  | (.ended, fifo) => ({ w with fifo, drain := .idle }, .ended)
  | (.wait, fifo) => ({ w with fifo, drain := .asleep len }, .slept)

def commitWrite (w : World c) (data len : Nat) : World c × Event :=
  match w.fifo.commitWrite data len with
  | .error e => (w, .threw e)
  | .ok (fifo, notify) =>
    ({ fifo, drain := .idle, source := w.source.notifyIf notify },
      .wrote (Memory.slice w.fifo.buffer data len))

def endWrite (w : World c) : World c × Event :=
  -- notifies the other side regardless of the high water mark
  ({ fifo := w.fifo.endWrite, drain := .idle, source := w.source.notifyAll }, .closed)

def requestRead (w : World c) (len : Nat) : World c × Event :=
  match w.fifo.requestReadTest with
  | .error e => (w, .threw e)
  | .ok () => ({ w with source := .entering len }, .entered)

def passRead (w : World c) (len : Nat) : World c × Event :=
  match w.fifo.requestReadPass len with
  | (.granted data n, fifo) => ({ w with fifo, source := .holding data n }, .granted data n)
  | (.ended, fifo) => ({ w with fifo, source := .idle }, .ended)
  | (.wait, fifo) => ({ w with fifo, source := .asleep len }, .slept)

def commitRead (w : World c) (data len : Nat) : World c × Event :=
  match w.fifo.commitRead data len with
  | .error e => (w, .threw e)
  | .ok (fifo, notify) =>
    ({ fifo, drain := w.drain.notifyIf notify, source := .idle },
      .took (Memory.slice w.fifo.buffer data len))

def endRead (w : World c) : World c × Event :=
  -- notifies the other side regardless of the low water mark
  ({ fifo := w.fifo.endRead, drain := w.drain.notifyAll, source := .idle }, .closed)

def step (w : World c) (a : Operation) : Option (World c × Event) :=
  match a with
  | .requestWrite len => if w.drain.free then some (w.requestWrite len) else none
  | .passWrite => w.drain.ready.map w.passWrite
  | .wakeWrite =>
    match w.drain with
    | .asleep len => some ({ w with drain := .notified len }, .woken)
    | _ => none
  | .failWrite => w.drain.waiting.map fun _ => ({ w with drain := .idle }, .ended)
  | .store addr b =>
    if w.drain.free then some ({ w with fifo := w.fifo.store addr b }, .stored) else none
  | .commitWrite data len => if w.drain.free then some (w.commitWrite data len) else none
  | .endWrite => if w.drain.free then some w.endWrite else none
  | .requestRead len => if w.source.free then some (w.requestRead len) else none
  | .passRead => w.source.ready.map w.passRead
  | .wakeRead =>
    match w.source with
    | .asleep len => some ({ w with source := .notified len }, .woken)
    | _ => none
  | .failRead => w.source.waiting.map fun _ => ({ w with source := .idle }, .ended)
  | .commitRead data len => if w.source.free then some (w.commitRead data len) else none
  | .endRead => if w.source.free then some w.endRead else none

/--
The contract of the two interfaces. A thread that has no range requests at least one byte, stores are
made into the range that is held, and a commit is for the range that is held, in part or as a whole.
No call of `Wait` fails.
-/
def Legal (w : World c) (a : Operation) : Prop :=
  match a with
  | .requestWrite len => w.drain = .idle ∧ 0 < len
  | .store addr _ => ∃ data n, w.drain = .holding data n ∧ data ≤ addr ∧ addr < data + n
  | .commitWrite data len => ∃ n, w.drain = .holding data n ∧ len ≤ n
  | .requestRead len => w.source = .idle ∧ 0 < len
  | .commitRead data len => ∃ n, w.source = .holding data n ∧ len ≤ n
  | .failWrite | .failRead => False
  | _ => True

def machine (c : Layout) : Machine (World c) Operation Event where
  step := step

end World
