import Buffer2.Machine.Basic
import Buffer2.Memory.Ownership

/-!
This module contains `own_ptr`, a pointer that may own its object, and the programs that use any number of
variables of this type.
-/

namespace SmartPointer

variable {ι α : Type} [DecidableEq ι] [DecidableEq α]

structure OwnPtr (α : Type) where
  ptr : Option α
  own : Bool
  deriving DecidableEq

structure OwnPtrRef (α : Type) where
  ptr : Option α
  own : Bool
  deriving DecidableEq

namespace OwnPtr

def null : OwnPtr α where
  ptr := none
  own := false

def ofObject (r : α) : OwnPtr α where
  ptr := some r
  own := false

def ofPointer (p : Option α) : OwnPtr α where
  ptr := p
  own := p.isSome

def ofPointerOwn (p : Option α) (own : Bool) : OwnPtr α where
  ptr := p
  own := own && p.isSome

def ofRef (r : OwnPtrRef α) : OwnPtr α where
  ptr := r.ptr
  own := r.own

/--
`r` is what `release` of the `auto_ptr` returns.
-/
def ofAutoPtr (r : Option α) : OwnPtr α where
  ptr := r
  own := true

def attach (ptr : Option α) (own : Bool) : OwnPtr α where
  ptr := ptr
  own := own && ptr.isSome

def detach (p : OwnPtr α) (heap : Heap α) : Heap α := if p.own then heap.delete p.ptr else heap

def release (p : OwnPtr α) : Option α × OwnPtr α := (p.ptr, { ptr := none, own := false })

def toRef (p : OwnPtr α) : OwnPtrRef α × OwnPtr α := ({ ptr := p.ptr, own := p.own }, p.release.2)

/--
The protected `Reset`, which the overloads of `reset` share.
-/
def reset (p : OwnPtr α) (heap : Heap α) (ptr : Option α) (own : Bool) : Heap α × OwnPtr α :=
  (p.detach heap, attach ptr own)

def resetNull (p : OwnPtr α) (heap : Heap α) : Heap α × OwnPtr α :=
  (p.detach heap, { ptr := none, own := false })

def resetPointer (p : OwnPtr α) (heap : Heap α) (ptr : Option α) (own : Bool) : Heap α × OwnPtr α :=
  if ptr ≠ p.ptr then p.reset heap ptr own else (heap, p)

def resetObject (p : OwnPtr α) (heap : Heap α) (o : α) : Heap α × OwnPtr α :=
  (p.detach heap, { ptr := some o, own := false })

def resetRef (p : OwnPtr α) (heap : Heap α) (r : OwnPtrRef α) : Heap α × OwnPtr α :=
  p.resetPointer heap r.ptr r.own

def resetAutoPtr (p : OwnPtr α) (heap : Heap α) (r : Option α) : Heap α × OwnPtr α :=
  p.resetPointer heap r true

def owned (p : OwnPtr α) : Option α := if p.own then p.ptr else none

end OwnPtr

/--
What the constructors, `reset` and the assignment are overloaded for. The reference `ownPtr` is a variable,
and an `auto_ptr` is given by the pointer in it.
-/
inductive Operand (ι α : Type)
  | pointer (p : Option α)
  | pointerOwn (p : Option α) (own : Bool)
  | object (o : α)
  | ownPtr (r : ι)
  | ref (r : OwnPtrRef α)
  | autoPtr (r : Option α)

def Operand.given (v : Operand ι α) : Option α :=
  match v with
  | .pointer p => p
  | .pointerOwn p own => if own then p else none
  | .object _ => none
  | .ownPtr _ => none
  | .ref r => if r.own then r.ptr else none
  | .autoPtr r => r

/--
The objects are created and destroyed by the rest of the program.
-/
inductive Operation (ι α : Type)
  | construct (x : ι)
  | constructFrom (x : ι) (v : Operand ι α)
  | destruct (x : ι)
  | release (x : ι)
  | toRef (x : ι)
  | reset (x : ι)
  | resetTo (x : ι) (v : Operand ι α)
  | assign (x : ι) (v : Operand ι α)
  | create (a : α)
  | destroy (a : α)

structure State (ι α : Type) where
  heap : Heap α
  vars : ι → Option (OwnPtr α)

namespace State

def write (s : State ι α) (x : ι) (p : Option (OwnPtr α)) : State ι α :=
  { s with vars := Function.update s.vars x p }

def store (s : State ι α) (x : ι) (r : Heap α × OwnPtr α) : State ι α :=
  { heap := r.1
    vars := Function.update s.vars x (some r.2) }

def init (s : State ι α) (x : ι) (p : OwnPtr α) : Option (State ι α) :=
  match s.vars x with
  | none => some (s.write x (some p))
  | some _ => none

def constructFrom (s : State ι α) (x : ι) (v : Operand ι α) : Option (State ι α) :=
  match v with
  | .pointer p => s.init x (.ofPointer p)
  | .pointerOwn p own => s.init x (.ofPointerOwn p own)
  | .object o => s.init x (.ofObject o)
  | .ref r => s.init x (.ofRef r)
  | .autoPtr r => s.init x (.ofAutoPtr r)
  | .ownPtr r => do
    let q ← s.vars r
    let s ← s.init x { ptr := q.ptr, own := q.own }
    return s.write r (some q.release.2)

def resetTo (s : State ι α) (x : ι) (v : Operand ι α) : Option (State ι α) := do
  let p ← s.vars x
  match v with
  | .pointer ptr => return s.store x (p.resetPointer s.heap ptr true)
  | .pointerOwn ptr own => return s.store x (p.resetPointer s.heap ptr own)
  | .object o => return s.store x (p.resetObject s.heap o)
  | .ref r => return s.store x (p.resetRef s.heap r)
  | .autoPtr r => return s.store x (p.resetAutoPtr s.heap r)
  | .ownPtr r =>
    let q ← s.vars r
    if q.ptr ≠ p.ptr then
      return (s.store x (p.reset s.heap q.ptr q.own)).write r (some q.release.2)
    else
      return s

/--
There is no assignment of a pointer together with a flag.
-/
def assign (s : State ι α) (x : ι) (v : Operand ι α) : Option (State ι α) :=
  match v with
  | .pointerOwn _ _ => none
  | v => s.resetTo x v

def step (s : State ι α) (op : Operation ι α) : Option (State ι α) :=
  match op with
  | .construct x => s.init x .null
  | .constructFrom x v => s.constructFrom x v
  | .destruct x => do
    let p ← s.vars x
    return { s with heap := p.detach s.heap }.write x none
  | .release x => do
    let p ← s.vars x
    return s.write x (some p.release.2)
  | .toRef x => do
    let p ← s.vars x
    return s.write x (some p.toRef.2)
  | .reset x => do
    let p ← s.vars x
    return s.store x (p.resetNull s.heap)
  | .resetTo x v => s.resetTo x v
  | .assign x v => s.assign x v
  | .create a => some { s with heap := s.heap.create a }
  | .destroy a => some { s with heap := s.heap.delete (some a) }

def initial (live : α → Bool) : State ι α where
  heap := { live, twice := false }
  vars _ := none

end State

def machine (ι α : Type) [DecidableEq ι] [DecidableEq α] :
    Machine (State ι α) (Operation ι α) (State ι α × State ι α) where
  step s op := (s.step op).map fun s' => (s', (s, s'))

end SmartPointer
