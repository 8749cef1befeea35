import Mathlib.Tactic.Simps.Basic
import Buffer2.Memory.Basic

/-!
This module contains the operations of `StaticFIFO`. Each definition is one stretch of code that runs
under `StateLock` (or, for the tests at the start of the two requests, just before it is acquired).
-/

/--
The quasi-constant members of a `StaticFIFO`. `wordBits` is the width of `size_t` and of an address.
The buffer lies in the address space, so that the address of its end does not wrap.
-/
structure Layout where
  wordBits : Nat
  bufferBegin : Nat
  bufferSize : Nat
  lowWaterMark : Nat
  highWaterMark : Nat
  size_pos : 0 < bufferSize
  fits : bufferBegin + bufferSize < 2 ^ wordBits
  low_le : lowWaterMark ≤ bufferSize
  high_le : highWaterMark ≤ bufferSize

def Layout.bufferEnd (c : Layout) : Nat := Word.add c.wordBits c.bufferBegin c.bufferSize

@[simp]
theorem Layout.bufferEnd_eq (c : Layout) : c.bufferEnd = c.bufferBegin + c.bufferSize :=
  Word.add_eq_of_lt c.fits

def Layout.oneByte : Layout where
  wordBits := 32
  bufferBegin := 4096
  bufferSize := 1
  lowWaterMark := 1
  highWaterMark := 0
  size_pos := by decide
  fits := by decide
  low_le := by decide
  high_le := by decide

def Layout.twoBytes : Layout where
  wordBits := 32
  bufferBegin := 4096
  bufferSize := 2
  lowWaterMark := 0
  highWaterMark := 2
  size_pos := by decide
  fits := by decide
  low_le := by decide
  high_le := by decide

def Layout.fourBytes : Layout where
  wordBits := 32
  bufferBegin := 4096
  bufferSize := 4
  lowWaterMark := 1
  highWaterMark := 3
  size_pos := by decide
  fits := by decide
  low_le := by decide
  high_le := by decide

def Layout.large : Layout where
  wordBits := 32
  bufferBegin := 4096
  bufferSize := 524288
  lowWaterMark := 524288
  highWaterMark := 0
  size_pos := by decide
  fits := by decide
  low_le := by decide
  high_le := by decide

inductive LogicError
  | requestOutstanding
  | notRequested
  | largerThanRequested
  deriving DecidableEq, Repr

def LogicError.what : LogicError → String
  | .requestOutstanding =>
    "The StaticFIFO class does not support two buffer resquests without commit in between."
  | .notRequested => "Cannot commit a buffer that is not requested before."
  | .largerThanRequested => "Cannot commit a larger buffer than requested."

/--
The internal state of a `StaticFIFO`. `buffer` holds the bytes of the buffer by their addresses,
`rdPos` and `wrPos` are addresses as well.
-/
structure StaticFIFO (c : Layout) where
  buffer : Nat → UInt8
  rdPos : Nat
  wrPos : Nat
  level : Nat
  rdReq : Nat
  wrReq : Nat
  eos : Bool
  emptyCount : UInt32
  fullCount : UInt32

/--
How one pass through the loop of a request ends: with the range `[data, data + len)`, with `len = 0`
and `data` left as it was, or in a call of `Wait`.
-/
inductive Pass
  | granted (data len : Nat)
  | ended
  | wait
  deriving DecidableEq, Repr

namespace StaticFIFO

variable {c : Layout}

@[simps -fullyApplied]
def init (c : Layout) : StaticFIFO c where
  buffer := fun _ => 0
  rdPos := c.bufferBegin
  wrPos := c.bufferBegin
  level := 0
  rdReq := 0
  wrReq := 0
  eos := false
  emptyCount := 0
  fullCount := 0

def requestWriteTest (f : StaticFIFO c) : Except LogicError Unit :=
  -- The lock is not held yet, but only the thread itself changes `wrReq`.
  if f.wrReq ≠ 0 then
    .error .requestOutstanding
  else
    .ok ()

def requestWritePass (f : StaticFIFO c) (len : Nat) : Pass × StaticFIFO c :=
  if f.eos then
    (.ended, f)
  else
    let rem := Word.sub c.wordBits c.bufferSize f.level
    if rem > 0 then
      let len := if len > rem then rem else len
      let rem := Word.sub c.wordBits c.bufferEnd f.wrPos
      let len := if len > rem then rem else len
      (.granted f.wrPos len, { f with wrReq := len })
    else
      -- the condition of the loop is `NotifyDrain.Wait()`
      (.wait, { f with fullCount := f.fullCount + 1 })

def commitWrite (f : StaticFIFO c) (data len : Nat) : Except LogicError (StaticFIFO c × Bool) :=
  if data ≠ f.wrPos then
    .error .notRequested
  else if len > f.wrReq then
    .error .largerThanRequested
  else
    let wrPos := Word.add c.wordBits f.wrPos len
    let wrPos := if wrPos = c.bufferEnd then c.bufferBegin else wrPos
    let level := Word.add c.wordBits f.level len
    -- the flag says whether `NotifySource.NotifyAll` is called
    .ok ({ f with wrReq := 0, wrPos, level }, decide (level ≥ c.highWaterMark))

@[simps -fullyApplied]
def endWrite (f : StaticFIFO c) : StaticFIFO c :=
  { f with eos := true, wrReq := 0 }

def requestReadTest (f : StaticFIFO c) : Except LogicError Unit :=
  if f.rdReq ≠ 0 then
    .error .requestOutstanding
  else
    .ok ()

def requestReadPass (f : StaticFIFO c) (len : Nat) : Pass × StaticFIFO c :=
  if f.level > 0 then
    let len := if len > f.level then f.level else len
    let rem := Word.sub c.wordBits c.bufferEnd f.rdPos
    let len := if len > rem then rem else len
    (.granted f.rdPos len, { f with rdReq := len })
  else if f.eos then
    (.ended, f)
  else
    -- the condition of the loop is `NotifySource.Wait()`
    (.wait, { f with emptyCount := f.emptyCount + 1 })

def commitRead (f : StaticFIFO c) (data len : Nat) : Except LogicError (StaticFIFO c × Bool) :=
  if data ≠ f.rdPos then
    .error .notRequested
  else if len > f.rdReq then
    .error .largerThanRequested
  else
    let rdPos := Word.add c.wordBits f.rdPos len
    let rdPos := if rdPos = c.bufferEnd then c.bufferBegin else rdPos
    let level := Word.sub c.wordBits f.level len
    -- the flag says whether `NotifyDrain.NotifyAll` is called
    .ok ({ f with rdReq := 0, rdPos, level }, decide (level ≤ c.lowWaterMark))

@[simps -fullyApplied]
def endRead (f : StaticFIFO c) : StaticFIFO c :=
  { f with eos := true, rdReq := 0 }

@[simps -fullyApplied]
def store (f : StaticFIFO c) (addr : Nat) (b : UInt8) : StaticFIFO c :=
  { f with buffer := Function.update f.buffer addr b }

end StaticFIFO
