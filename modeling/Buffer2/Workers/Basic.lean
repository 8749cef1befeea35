import Buffer2.Machine.Composition
import Buffer2.Fifo.Threads

/-!
This module contains the two workers of `buffer2`, each of them as a program that uses its side of one
`StaticFIFO`, and the exit value that `main` computes when both are done.

The statistics that the workers print are left out.
-/

inductive Exception
  | interrupt
  | runtime
  | logic
  | other
  deriving DecidableEq, Repr

/--
What happens next in a worker: it goes on, the I/O call that it is in moves one more byte, its call of
`Wait` returns without a notification, or `false`, or the I/O call throws.
-/
inductive Choice
  | run
  | byte
  | wake
  | waitFails
  | throws (e : Exception)
  deriving DecidableEq, Repr

inductive InputPos
  | initializing
  | request
  | requesting
  | reading (buf len n : Nat)
  | commit (buf len : Nat)
  | endWrite
  | done
  deriving DecidableEq, Repr

/--
`stream` is what the input interface has not returned yet, `delivered` what it has.
-/
structure InputWorker where
  pos : InputPos
  result : Nat
  stream : List UInt8
  delivered : List UInt8

namespace InputWorker

def init (stream : List UInt8) : InputWorker where
  pos := .initializing
  result := 0
  stream := stream
  delivered := []

def handle (p : InputWorker) (e : Exception) : InputWorker :=
  -- every handler is followed by `Dst.EndWrite()`
  { p with
    pos := .endWrite
    result :=
      match e with
      | .interrupt => p.result
      | .runtime => 10
      | .logic => 19
      | .other => 28 }

def resume (p : InputWorker) (e : Event) : InputWorker :=
  match e with
  | .threw _ => p.handle .logic
  | .granted buf len =>
    if len = 0 then
      { p with pos := .endWrite }
    else
      { p with pos := .reading buf len 0 }
  | .ended => { p with pos := .endWrite }
  | _ => { p with pos := .requesting }

def resumeCommit (p : InputWorker) (e : Event) : InputWorker :=
  match e with
  | .threw _ => p.handle .logic
  | _ => { p with pos := .request }

def move (requestSize : Nat) (p : InputWorker) (x : Choice) : Option (Move Operation Event InputWorker) :=
  match p.pos, x with
  | .initializing, .run => some (.own { p with pos := .request })
  | .initializing, .throws e => some (.own (p.handle e))
  | .request, .run => some (.call (.requestWrite requestSize) p.resume)
  | .requesting, .run => some (.call .passWrite p.resume)
  | .requesting, .wake => some (.call .wakeWrite p.resume)
  | .requesting, .waitFails => some (.call .failWrite p.resume)
  | .reading buf len n, .byte =>
    match p.stream[n]? with
    | some b =>
      if n < len then
        some (.call (.store (buf + n) b) fun _ => { p with pos := .reading buf len (n + 1) })
      else
        none
    | none => none
  | .reading buf _ n, .run =>
    if n ≠ 0 then
      some (.own
        { p with
          pos := .commit buf n
          stream := p.stream.drop n
          delivered := p.delivered ++ p.stream.take n })
    else if p.stream = [] then
      some (.own { p with pos := .endWrite })
    else
      -- `ReadData` returns 0 only at the end of the stream
      none
  | .reading _ _ _, .throws e => some (.own (p.handle e))
  | .commit buf len, .run => some (.call (.commitWrite buf len) p.resumeCommit)
  | .endWrite, .run => some (.call .endWrite fun _ => { p with pos := .done })
  | _, _ => none

end InputWorker

inductive OutputPos
  | initializing
  | request
  | requesting
  | writing (buf len : Nat) (bytes : List UInt8)
  | commit (buf len : Nat)
  | endRead
  | done
  deriving DecidableEq, Repr

structure OutputWorker where
  pos : OutputPos
  result : Nat
  accepted : List UInt8

namespace OutputWorker

def init : OutputWorker where
  pos := .initializing
  result := 0
  accepted := []

def handle (p : OutputWorker) (e : Exception) : OutputWorker :=
  -- every handler is followed by `Src.EndRead()`
  { p with
    pos := .endRead
    result :=
      match e with
      | .interrupt => p.result
      | .runtime => 11
      | .logic => 19
      | .other => 28 }

def resume (p : OutputWorker) (e : Event) : OutputWorker :=
  match e with
  | .threw _ => p.handle .logic
  | .granted buf len =>
    if len = 0 then
      { p with pos := .endRead }
    else
      { p with pos := .writing buf len [] }
  | .ended => { p with pos := .endRead }
  | _ => { p with pos := .requesting }

def resumeCommit (p : OutputWorker) (e : Event) : OutputWorker :=
  match e with
  | .threw _ => p.handle .logic
  | _ => { p with pos := .request }

def move (requestSize : Nat) (buffer : Nat → UInt8) (p : OutputWorker) (x : Choice) :
    Option (Move Operation Event OutputWorker) :=
  match p.pos, x with
  | .initializing, .run => some (.own { p with pos := .request })
  | .initializing, .throws e => some (.own (p.handle e))
  | .request, .run => some (.call (.requestRead requestSize) p.resume)
  | .requesting, .run => some (.call .passRead p.resume)
  | .requesting, .wake => some (.call .wakeRead p.resume)
  | .requesting, .waitFails => some (.call .failRead p.resume)
  | .writing buf len bytes, .byte =>
    if bytes.length < len then
      some (.own { p with pos := .writing buf len (bytes ++ [buffer (buf + bytes.length)]) })
    else
      none
  | .writing buf _ bytes, .run =>
    if bytes.length = 0 then
      -- the destination does not accept more data
      some (.own (p.handle .runtime))
    else
      some (.own
        { p with
          pos := .commit buf bytes.length
          accepted := p.accepted ++ bytes })
  | .writing _ _ _, .throws e => some (.own (p.handle e))
  | .commit buf len, .run => some (.call (.commitRead buf len) p.resumeCommit)
  | .endRead, .run => some (.call .endRead fun _ => { p with pos := .done })
  | _, _ => none

end OutputWorker

abbrev Workers (c : Layout) := Composed (World c) InputWorker OutputWorker

namespace Workers

variable {c : Layout}

def init (c : Layout) (stream : List UInt8) : Workers c where
  shared := .init c
  left := .init stream
  right := .init

def machine (c : Layout) (requestSize : Nat) :
    Machine (Workers c) (Choice ⊕ Choice) (Option (Operation × Event)) :=
  (World.machine c).compose (fun w => w.fifo.buffer)
    { move := fun _ => InputWorker.move requestSize } { move := OutputWorker.move requestSize }

def inputTurns (xs : List Choice) : List (Choice ⊕ Choice) := xs.map .inl

def outputTurns (xs : List Choice) : List (Choice ⊕ Choice) := xs.map .inr

def Finished (s : Workers c) : Prop := s.left.pos = .done ∧ s.right.pos = .done

def exitValue (s : Workers c) : Nat :=
  if s.left.result ≠ 0 then s.left.result else s.right.result

end Workers
