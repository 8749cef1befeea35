import Mathlib.Data.Finset.Basic
import Buffer2.Machine.Composition
import Buffer2.Tcpip.Basic

/-!
This module contains the objects behind `IInput` and `IOutput`, as they are on the POSIX platforms, with
the system calls that they make and the descriptors of the process.

What the calls transfer, and what the errors say, is left out.
-/

namespace Io

inductive OpenFlag
  | rdonly
  | wronly
  | creat
  | trunc
  | sync
  deriving DecidableEq, Repr

inductive Syscall
  | open (name : CString) (flags : List OpenFlag)
  | socket
  | bind (fd : Nat) (addr : Tcpip.SockaddrIn)
  | listen (fd backlog : Nat)
  | accept (fd : Nat)
  | connect (fd : Nat) (addr : Tcpip.SockaddrIn)
  | read (fd len : Nat)
  | write (fd len : Nat)
  | recv (fd len : Nat)
  | send (fd len : Nat)
  | close (fd : Nat)
  deriving DecidableEq

inductive Answer
  | value (n : Nat)
  | error (errno : Int)
  deriving DecidableEq, Repr

namespace Syscall

def fd (call : Syscall) : Option Nat :=
  match call with
  | .open _ _ | .socket => none
  | .bind fd _ | .listen fd _ | .accept fd | .connect fd _ => some fd
  | .read fd _ | .write fd _ | .recv fd _ | .send fd _ => some fd
  | .close fd => some fd

def creates (call : Syscall) : Bool :=
  match call with
  | .open _ _ | .socket | .accept _ => true
  | _ => false

end Syscall

/--
The open descriptors of the process. A call on any other one fails, a new descriptor is none of them, and
`close` takes one away even if it reports an error.
-/
def system : Machine (Finset Nat) (Syscall × Answer) Answer where
  step table x :=
    match x.2 with
    | .error errno =>
      match x.1 with
      | .close fd => some (table.erase fd, .error errno)
      | _ => some (table, .error errno)
    | .value n =>
      if ∀ fd ∈ x.1.fd, fd ∈ table then
        match x.1 with
        | .close fd => some (table.erase fd, .value n)
        | call =>
          if call.creates then
            if n ∈ table then none else some (insert n table, .value n)
          else
            some (table, .value n)
      else
        none

inductive Interface
  | file (name : CString)
  | tcpip (services : Tcpip.TcpipServices)
  deriving DecidableEq

structure Direction where
  standard : Nat
  flags : List OpenFlag
  transferFile : Nat → Nat → Syscall
  transferSocket : Nat → Nat → Syscall

def input : Direction where
  standard := 0
  flags := [.rdonly]
  transferFile := .read
  transferSocket := .recv

def output : Direction where
  standard := 1
  flags := [.creat, .trunc, .wronly]
  transferFile := .write
  transferSocket := .send

inductive Pos
  | created
  | bind
  | listen
  | accept
  | closeListener (socket : Nat)
  | connect
  | transfer
  | destroy
  | destroyed
  deriving DecidableEq, Repr

/--
`handle` is `HF` or `Socket`, with `none` for -1. `threw` is set by an `os_error`.
-/
structure Object where
  interface : Interface
  handle : Option Nat
  pos : Pos
  threw : Bool

/--
What happens next: the system answers the call that is made, which is for `len` bytes if it transfers any,
or the worker has no more use for the object.
-/
inductive Choice
  | answer (len : Nat) (a : Answer)
  | leave
  deriving DecidableEq, Repr

namespace Object

def create (interface : Interface) : Object where
  interface := interface
  handle := none
  pos := .created
  threw := false

def fail (p : Object) : Object :=
  { p with
    pos := .destroy
    threw := true }

def isStandard (name : CString) : Bool := name.chars = ['-']

def check (p : Object) (go : Nat → Object) (a : Answer) : Object :=
  match a with
  | .value n => go n
  | .error _ => p.fail

def moveInitialize (d : Direction) (enableCache : Bool) (p : Object) (a : Answer) :
    Move (Syscall × Answer) Answer Object :=
  match p.interface with
  | .file name =>
    if isStandard name then
      .own { p with
        handle := some d.standard
        pos := .transfer }
    else
      .call (.open name (if enableCache then d.flags else d.flags ++ [.sync]), a) <|
        p.check fun fd => { p with
          handle := some fd
          pos := .transfer }
  | .tcpip services =>
    .call (.socket, a) <|
      p.check fun fd => { p with
        handle := some fd
        pos := if services.isServer then .bind else .connect }

def moveSocket (p : Object) (addr : Tcpip.SockaddrIn) (fd : Nat) (a : Answer) :
    Option (Move (Syscall × Answer) Answer Object) :=
  match p.pos with
  | .bind => some (.call (.bind fd addr, a) <| p.check fun _ => { p with pos := .listen })
  | .listen => some (.call (.listen fd 0, a) <| p.check fun _ => { p with pos := .accept })
  -- The address that `accept` writes is left out.
  | .accept => some (.call (.accept fd, a) <| p.check fun socket => { p with pos := .closeListener socket })
  | .closeListener socket =>
    some (.call (.close fd, a) fun _ => { p with
      handle := some socket
      pos := .transfer })
  | .connect => some (.call (.connect fd addr, a) <| p.check fun _ => { p with pos := .transfer })
  | _ => none

def moveTransfer (call : Syscall) (p : Object) (a : Answer) : Move (Syscall × Answer) Answer Object :=
  -- The worker has no more use for the object after a 0.
  .call (call, a) <| p.check fun n => { p with pos := if n = 0 then .destroy else .transfer }

def move (d : Direction) (enableCache : Bool) (p : Object) (x : Choice) :
    Option (Move (Syscall × Answer) Answer Object) :=
  match p.pos, x with
  | .created, .answer _ a => some (p.moveInitialize d enableCache a)
  | .created, .leave => some (.own { p with pos := .destroy })
  | .transfer, .answer len a =>
    p.handle.map fun fd =>
      match p.interface with
      | .file _ => p.moveTransfer (d.transferFile fd len) a
      | .tcpip _ => p.moveTransfer (d.transferSocket fd len) a
  | .transfer, .leave => some (.own { p with pos := .destroy })
  | .destroy, .answer _ a =>
    match p.handle with
    | none => some (.own { p with pos := .destroyed })
    | some fd => some (.call (.close fd, a) fun _ => { p with pos := .destroyed })
  | .destroyed, _ => none
  | _, .answer _ a =>
    match p.interface, p.handle with
    | .tcpip services, some fd => p.moveSocket services.addr fd a
    | _, _ => none
  | _, .leave => none

end Object

abbrev Objects := Composed (Finset Nat) Object Object

namespace Objects

def init (table : Finset Nat) (src dst : Interface) : Objects where
  shared := table
  left := .create src
  right := .create dst

def machine (enableCache : Bool) : Machine Objects (Choice ⊕ Choice) (Option ((Syscall × Answer) × Answer)) :=
  system.compose (fun _ => ()) { move := fun _ => Object.move input enableCache }
    { move := fun _ => Object.move output enableCache }

end Objects
end Io
