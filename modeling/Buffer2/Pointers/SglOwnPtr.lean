import Buffer2.Pointers.OwnPtr

/-!
This module contains `sgl_own_ptr`, an `own_ptr` that points to a singleton instead of nothing, and the
programs that use any number of variables of both types.
-/

namespace SmartPointer

variable {ι κ α : Type} [DecidableEq ι] [DecidableEq κ] [DecidableEq α]

structure SglOwnPtrRef (α : Type) where
  ptr : Option α
  own : Bool
  deriving DecidableEq

/--
The class is derived from `own_ptr` and has no data of its own. `sgl` is its singleton.
-/
structure SglOwnPtr (α : Type) extends OwnPtr α where
  sgl : α
  deriving DecidableEq

namespace SglOwnPtr

def attach (sgl : α) (ptr : Option α) (own : Bool) : SglOwnPtr α :=
  match ptr with
  | some a =>
    { ptr := some a
      own
      sgl }
  | none =>
    { ptr := some sgl
      own := false
      sgl }

def ofBase (sgl : α) (p : OwnPtr α) : SglOwnPtr α := { p with sgl }

def single (sgl : α) : SglOwnPtr α := ofBase sgl (.ofObject sgl)

def ofObject (sgl : α) (ref : α) : SglOwnPtr α := ofBase sgl (.ofObject ref)

def ofPointer (sgl : α) (ptr : Option α) (own : Bool) : SglOwnPtr α := attach sgl ptr own

def ofAutoPtr (sgl : α) (r : Option α) : SglOwnPtr α := ofBase sgl (.ofPointerOwn r true)

def ofOwnPtr (sgl : α) (r : OwnPtr α) : SglOwnPtr α := attach sgl r.ptr r.own

def ofRef (sgl : α) (r : OwnPtrRef α) : SglOwnPtr α := attach sgl r.ptr r.own

def ofSglRef (sgl : α) (r : SglOwnPtrRef α) : SglOwnPtr α := ofBase sgl (.ofPointerOwn r.ptr r.own)

/--
The constructors with a cast. `ptr` is the pointer after the cast, which is null if a dynamic one fails.
-/
def ofSglRefCast (sgl : α) (r : SglOwnPtrRef α) (ptr : Option α) : SglOwnPtr α := attach sgl ptr r.own

def getRaw (p : SglOwnPtr α) : Option α := if p.ptr = some p.sgl then none else p.ptr

def release (p : SglOwnPtr α) : Option α × SglOwnPtr α :=
  (p.getRaw, { p with
    ptr := some p.sgl
    own := false })

/--
There is one constructor for the same singleton and one for another singleton.
-/
def ofSgl (sgl : α) (r : SglOwnPtr α) : SglOwnPtr α :=
  if r.sgl = sgl then
    ofBase sgl (.ofPointerOwn r.ptr r.own)
  else
    attach sgl r.getRaw r.own

def toSglRef (p : SglOwnPtr α) : SglOwnPtrRef α × SglOwnPtr α :=
  ({ ptr := p.ptr, own := p.own }, p.release.2)

def toOtherSglRef (p : SglOwnPtr α) (sgl : α) : SglOwnPtrRef α × SglOwnPtr α :=
  ({ ptr := if p.ptr = some p.sgl then some sgl else p.ptr, own := p.own }, p.release.2)

def asOwnPtr (p : SglOwnPtr α) : OwnPtr α × SglOwnPtr α := (.ofPointerOwn p.ptr p.own, p.release.2)

def reset (p : SglOwnPtr α) (heap : Heap α) (ptr : Option α) (own : Bool) : Heap α × SglOwnPtr α :=
  (p.detach heap, attach p.sgl ptr own)

def resetNull (p : SglOwnPtr α) (heap : Heap α) : Heap α × SglOwnPtr α :=
  (p.detach heap, { p with
    ptr := some p.sgl
    own := false })

def resetPointer (p : SglOwnPtr α) (heap : Heap α) (ptr : Option α) (own : Bool) : Heap α × SglOwnPtr α :=
  if ptr ≠ p.ptr then p.reset heap ptr own else (heap, p)

def resetObject (p : SglOwnPtr α) (heap : Heap α) (ref : α) : Heap α × SglOwnPtr α :=
  (p.detach heap, { p with
    ptr := some ref
    own := false })

def resetSglRef (p : SglOwnPtr α) (heap : Heap α) (r : SglOwnPtrRef α) : Heap α × SglOwnPtr α :=
  p.resetPointer heap r.ptr r.own

def resetRef (p : SglOwnPtr α) (heap : Heap α) (r : OwnPtrRef α) : Heap α × SglOwnPtr α :=
  p.resetPointer heap r.ptr r.own

def resetAutoPtr (p : SglOwnPtr α) (heap : Heap α) (r : Option α) : Heap α × SglOwnPtr α :=
  p.resetPointer heap r true

end SglOwnPtr

inductive SglOperand (ι κ α : Type)
  | pointer (p : Option α)
  | pointerOwn (p : Option α) (own : Bool)
  | object (o : α)
  | autoPtr (r : Option α)
  | ownPtr (r : ι)
  | ref (r : OwnPtrRef α)
  | sgl (r : κ)
  | sglRef (r : SglOwnPtrRef α)
  | sglRefCast (r : SglOwnPtrRef α) (succeeds : Bool)

def SglOperand.given (v : SglOperand ι κ α) : Option α :=
  match v with
  | .pointer p => p
  | .pointerOwn p own => if own then p else none
  | .object _ => none
  | .autoPtr r => r
  | .ownPtr _ => none
  | .ref r => if r.own then r.ptr else none
  | .sgl _ => none
  | .sglRef r => if r.own then r.ptr else none
  | .sglRefCast r _ => if r.own then r.ptr else none

/--
The operations on the variables of the one type are among those of the other. `ownPtrFrom` and
`ownPtrResetTo` are the constructor and the `reset` of `own_ptr` with an `sgl_own_ptr`.
-/
inductive SglOperation (ι κ α : Type)
  | ownPtr (op : Operation ι α)
  | ownPtrFrom (x : ι) (r : κ)
  | ownPtrResetTo (x : ι) (r : κ)
  | construct (x : κ) (sgl : α)
  | constructFrom (x : κ) (sgl : α) (v : SglOperand ι κ α)
  | destruct (x : κ)
  | release (x : κ)
  | toSglRef (x : κ)
  | toOtherSglRef (x : κ) (sgl : α)
  | asOwnPtr (x : κ) (y : ι)
  | reset (x : κ)
  | resetTo (x : κ) (v : SglOperand ι κ α)
  | assign (x : κ) (v : SglOperand ι κ α)

structure SglState (ι κ α : Type) where
  base : State ι α
  sgls : κ → Option (SglOwnPtr α)

namespace SglState

def writeOwnPtr (s : SglState ι κ α) (x : ι) (p : OwnPtr α) : SglState ι κ α :=
  { s with base := s.base.write x (some p) }

def write (s : SglState ι κ α) (x : κ) (p : Option (SglOwnPtr α)) : SglState ι κ α :=
  { s with sgls := Function.update s.sgls x p }

def store (s : SglState ι κ α) (x : κ) (r : Heap α × SglOwnPtr α) : SglState ι κ α :=
  { base := { s.base with heap := r.1 }
    sgls := Function.update s.sgls x (some r.2) }

def init (s : SglState ι κ α) (x : κ) (p : SglOwnPtr α) : Option (SglState ι κ α) :=
  match s.sgls x with
  | none => some (s.write x (some p))
  | some _ => none

def constructFrom (s : SglState ι κ α) (x : κ) (sgl : α) (v : SglOperand ι κ α) :
    Option (SglState ι κ α) :=
  match v with
  | .pointer p => s.init x (.ofPointer sgl p true)
  | .pointerOwn p own => s.init x (.ofPointer sgl p own)
  | .object o => s.init x (.ofObject sgl o)
  | .autoPtr r => s.init x (.ofAutoPtr sgl r)
  | .ownPtr r => do
    let q ← s.base.vars r
    let s ← s.init x (.ofOwnPtr sgl q)
    return s.writeOwnPtr r q.release.2
  | .ref r => s.init x (.ofRef sgl r)
  | .sgl r => do
    let q ← s.sgls r
    let s ← s.init x (.ofSgl sgl q)
    return s.write r (some q.release.2)
  | .sglRef r => s.init x (.ofSglRef sgl r)
  | .sglRefCast r succeeds => s.init x (.ofSglRefCast sgl r (if succeeds then r.ptr else none))

/--
The overloads for the same singleton and for another one do the same. There is none with a cast.
-/
def resetTo (s : SglState ι κ α) (x : κ) (v : SglOperand ι κ α) : Option (SglState ι κ α) := do
  let p ← s.sgls x
  match v with
  | .pointer ptr => return s.store x (p.resetPointer s.base.heap ptr true)
  | .pointerOwn ptr own => return s.store x (p.resetPointer s.base.heap ptr own)
  | .object o => return s.store x (p.resetObject s.base.heap o)
  | .autoPtr r => return s.store x (p.resetAutoPtr s.base.heap r)
  | .ownPtr r =>
    let q ← s.base.vars r
    if q.ptr ≠ p.ptr then
      return (s.store x (p.reset s.base.heap q.ptr q.own)).writeOwnPtr r q.release.2
    else
      return s
  | .ref r => return s.store x (p.resetRef s.base.heap r)
  | .sgl r =>
    let q ← s.sgls r
    if q.ptr ≠ p.ptr then
      return (s.store x (p.reset s.base.heap q.getRaw q.own)).write r (some q.release.2)
    else
      return s
  | .sglRef r => return s.store x (p.resetSglRef s.base.heap r)
  | .sglRefCast _ _ => none

def assign (s : SglState ι κ α) (x : κ) (v : SglOperand ι κ α) : Option (SglState ι κ α) :=
  match v with
  | .pointerOwn _ _ => none
  | v => s.resetTo x v

/--
The constructor of `own_ptr` takes its argument by value, so the variable is copied first.
-/
def ownPtrFrom (s : SglState ι κ α) (x : ι) (r : κ) : Option (SglState ι κ α) := do
  let q ← s.sgls r
  let copy := SglOwnPtr.ofSgl q.sgl q
  let base ← s.base.init x { ptr := copy.ptr, own := copy.own }
  return { s with base }.write r (some q.release.2)

/--
There is no guard in this `reset`.
-/
def ownPtrResetTo (s : SglState ι κ α) (x : ι) (r : κ) : Option (SglState ι κ α) := do
  let p ← s.base.vars x
  let q ← s.sgls r
  return { s with base := s.base.store x (p.reset s.base.heap q.ptr q.own) }.write r (some q.release.2)

def step (s : SglState ι κ α) (op : SglOperation ι κ α) : Option (SglState ι κ α) :=
  match op with
  | .ownPtr op => do
    let base ← s.base.step op
    return { s with base }
  | .ownPtrFrom x r => s.ownPtrFrom x r
  | .ownPtrResetTo x r => s.ownPtrResetTo x r
  | .construct x sgl => s.init x (.single sgl)
  | .constructFrom x sgl v => s.constructFrom x sgl v
  | .destruct x => do
    let p ← s.sgls x
    return { s with base := { s.base with heap := p.detach s.base.heap } }.write x none
  | .release x => do
    let p ← s.sgls x
    return s.write x (some p.release.2)
  | .toSglRef x => do
    let p ← s.sgls x
    return s.write x (some p.toSglRef.2)
  | .toOtherSglRef x sgl => do
    let p ← s.sgls x
    return s.write x (some (p.toOtherSglRef sgl).2)
  | .asOwnPtr x y => do
    let p ← s.sgls x
    let base ← s.base.init y p.asOwnPtr.1
    return { s with base }.write x (some p.asOwnPtr.2)
  | .reset x => do
    let p ← s.sgls x
    return s.store x (p.resetNull s.base.heap)
  | .resetTo x v => s.resetTo x v
  | .assign x v => s.assign x v

def initial (live : α → Bool) : SglState ι κ α where
  base := .initial live
  sgls _ := none

end SglState

def sglMachine (ι κ α : Type) [DecidableEq ι] [DecidableEq κ] [DecidableEq α] :
    Machine (SglState ι κ α) (SglOperation ι κ α) (SglState ι κ α) where
  step s op := (s.step op).map fun s' => (s', s')

end SmartPointer
