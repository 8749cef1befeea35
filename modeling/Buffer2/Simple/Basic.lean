import Buffer2.Machine.Composition
import Buffer2.Fifo.Threads

/-!
This module contains a thread that makes a sequence of calls of `SimpleDrain::write`, a thread that makes
a sequence of calls of `SimpleSource::read`, and both of them over one `StaticFIFO`.

After its calls the first thread calls `EndWrite`, and the second one `EndRead` if it comes to that.
-/

inductive CopyChoice
  | run
  | wake
  | waitFails
  deriving DecidableEq, Repr

inductive WritePos
  | idle
  | loop
  | requesting
  | copying (dst blen i : Nat)
  | commit (dst blen : Nat)
  | closed
  | thrown
  deriving DecidableEq, Repr

structure WriteCall where
  src : List UInt8
  result : Nat
  deriving DecidableEq, Repr

/--
`src` points between `copied` and `rest`, which are what the array of the call in progress holds, and
`len` is the length of `rest`.
-/
structure SimpleDrain where
  pos : WritePos
  script : List (List UInt8)
  copied : List UInt8
  rest : List UInt8
  log : List WriteCall

namespace SimpleDrain

def init (script : List (List UInt8)) : SimpleDrain where
  pos := .idle
  script := script
  copied := []
  rest := []
  log := []

def ret (p : SimpleDrain) (result : Nat) : SimpleDrain :=
  { p with
    pos := .idle
    copied := []
    rest := []
    log := p.log ++ [{ src := p.copied ++ p.rest, result }] }

def resume (p : SimpleDrain) (e : Event) : SimpleDrain :=
  match e with
  | .threw _ => { p with pos := .thrown }
  | .granted dst blen =>
    if blen = 0 then
      p.ret p.rest.length
    else
      { p with pos := .copying dst blen 0 }
  | .ended => p.ret p.rest.length
  | _ => { p with pos := .requesting }

def resumeCommit (p : SimpleDrain) (blen : Nat) (e : Event) : SimpleDrain :=
  match e with
  | .threw _ => { p with pos := .thrown }
  | _ =>
    { p with
      pos := .loop
      copied := p.copied ++ p.rest.take blen
      rest := p.rest.drop blen }

def write (p : SimpleDrain) (x : CopyChoice) : Option (Move Operation Event SimpleDrain) :=
  match p.pos, x with
  | .idle, .run =>
    match p.script with
    | [] => some (.call .endWrite fun _ => { p with pos := .closed })
    -- the call of `write` for the next array
    | src :: script => some (.own { p with pos := .loop, script, rest := src })
  | .loop, .run =>
    if p.rest.length ≠ 0 then
      some (.call (.requestWrite p.rest.length) p.resume)
    else
      some (.own (p.ret 0))
  | .requesting, .run => some (.call .passWrite p.resume)
  | .requesting, .wake => some (.call .wakeWrite p.resume)
  | .requesting, .waitFails => some (.call .failWrite p.resume)
  | .copying dst blen i, .run =>
    if i < blen then
      match p.rest[i]? with
      | some b => some (.call (.store (dst + i) b) fun _ => { p with pos := .copying dst blen (i + 1) })
      | none => none
    else
      some (.own { p with pos := .commit dst blen })
  | .commit dst blen, .run => some (.call (.commitWrite dst blen) (p.resumeCommit blen))
  | _, _ => none

end SimpleDrain

inductive ReadPos
  | idle
  | loop
  | requesting
  | copying (src blen : Nat) (bytes : List UInt8)
  | commit (src blen : Nat)
  | closed
  | thrown
  deriving DecidableEq, Repr

structure ReadCall where
  len : Nat
  dst : List UInt8
  result : Nat
  deriving DecidableEq, Repr

structure SimpleSource where
  pos : ReadPos
  script : List Nat
  olen : Nat
  len : Nat
  dst : List UInt8
  log : List ReadCall

namespace SimpleSource

def init (script : List Nat) : SimpleSource where
  pos := .idle
  script := script
  olen := 0
  len := 0
  dst := []
  log := []

def ret (p : SimpleSource) (result : Nat) : SimpleSource :=
  { p with
    pos := .idle
    dst := []
    log := p.log ++ [{ len := p.olen, dst := p.dst, result }] }

def resume (p : SimpleSource) (e : Event) : SimpleSource :=
  match e with
  | .threw _ => { p with pos := .thrown }
  | .granted src blen =>
    if blen = 0 then
      p.ret (p.olen - p.len)
    else
      { p with pos := .copying src blen [] }
  | .ended => p.ret (p.olen - p.len)
  | _ => { p with pos := .requesting }

def resumeCommit (p : SimpleSource) (blen : Nat) (e : Event) : SimpleSource :=
  match e with
  | .threw _ => { p with pos := .thrown }
  | _ =>
    { p with
      pos := .loop
      len := p.len - blen }

def read (buffer : Nat → UInt8) (p : SimpleSource) (x : CopyChoice) :
    Option (Move Operation Event SimpleSource) :=
  match p.pos, x with
  | .idle, .run =>
    match p.script with
    | [] => some (.call .endRead fun _ => { p with pos := .closed })
    -- the call of `read` for the next length
    | len :: script => some (.own { p with pos := .loop, script, olen := len, len })
  | .loop, .run =>
    if p.len ≠ 0 then
      some (.call (.requestRead p.len) p.resume)
    else
      some (.own (p.ret p.olen))
  | .requesting, .run => some (.call .passRead p.resume)
  | .requesting, .wake => some (.call .wakeRead p.resume)
  | .requesting, .waitFails => some (.call .failRead p.resume)
  | .copying src blen bytes, .run =>
    if bytes.length < blen then
      some (.own { p with pos := .copying src blen (bytes ++ [buffer (src + bytes.length)]) })
    else
      some (.own { p with pos := .commit src blen, dst := p.dst ++ bytes })
  | .commit src blen, .run => some (.call (.commitRead src blen) (p.resumeCommit blen))
  | _, _ => none

end SimpleSource

abbrev Simple (c : Layout) := Composed (World c) SimpleDrain SimpleSource

namespace Simple

variable {c : Layout}

def init (c : Layout) (writes : List (List UInt8)) (reads : List Nat) : Simple c where
  shared := .init c
  left := .init writes
  right := .init reads

def machine (c : Layout) :
    Machine (Simple c) (CopyChoice ⊕ CopyChoice) (Option (Operation × Event)) :=
  (World.machine c).compose (fun w => w.fifo.buffer) { move := fun _ => SimpleDrain.write }
    { move := SimpleSource.read }

end Simple
