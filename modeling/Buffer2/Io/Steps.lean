import Buffer2.Io.Basic
import Buffer2.Memory.Shares

/-!
This module contains what an I/O object does to the descriptors of the process: what it is responsible for at
each position, and what a step of it adds to that and takes away.
-/

namespace Io

section System

variable {table table' : Finset Nat} {call : Syscall} {a e : Answer}

inductive Serves (table : Finset Nat) (call : Syscall) (a : Answer) : Finset Nat → Prop
  | closed (fd : Nat) (hcall : call = .close fd) : Serves table call a (table.erase fd)
  | created (fd : Nat) (hcreates : call.creates = true) (ha : a = .value fd) (hnew : fd ∉ table) :
    Serves table call a (insert fd table)
  | done (hcall : ∀ fd, call ≠ .close fd) (ha : call.creates = true → ∃ errno, a = .error errno) :
    Serves table call a table

theorem serves_of_step (h : system.step table (call, a) = some (table', e)) :
    Serves table call a table' ∧ e = a := by
  simp only [system] at h
  split at h
  next errno =>
    split at h
    next fd =>
      cases h
      exact ⟨.closed fd rfl, rfl⟩
    next hcall =>
      cases h
      exact ⟨.done hcall fun _ => ⟨errno, rfl⟩, rfl⟩
  next n =>
    split at h
    . split at h
      next fd hopen =>
        cases h
        exact ⟨.closed fd rfl, rfl⟩
      next hcall =>
        split at h
        next hcreates =>
          split at h
          . cases h
          next hnew =>
            cases h
            exact ⟨.created n hcreates rfl hnew, rfl⟩
        next hcreates =>
          cases h
          exact ⟨.done hcall fun hcreates' => absurd hcreates' hcreates, rfl⟩
    . cases h

end System

def Interface.reserved (d : Direction) (interface : Interface) : Finset Nat :=
  match interface with
  | .file name => if Object.isStandard name then {d.standard} else ∅
  | .tcpip _ => ∅

namespace Object

def reserved (d : Direction) (p : Object) : Finset Nat := p.interface.reserved d

def handles (p : Object) : Finset Nat :=
  match p.handle with
  | none => ∅
  | some fd => {fd}

/--
The descriptors that the object is responsible for.
-/
def held (d : Direction) (p : Object) : Finset Nat :=
  match p.pos with
  | .destroyed => if p.handle = none then p.reserved d else ∅
  | .closeListener socket => insert socket p.handles
  | _ => p.handles ∪ p.reserved d

structure Ok (d : Direction) (p : Object) : Prop where
  created : p.pos = .created → p.handle = none
  transfer : p.pos = .transfer → p.handle ≠ none
  standard (fd : Nat) : p.handle = some fd → p.reserved d ⊆ {fd}
  socket : p.pos ∈ [.bind, .listen, .accept, .connect] → p.reserved d = ∅
  listener (socket fd : Nat) : p.pos = .closeListener socket → p.handle = some fd →
    p.reserved d = ∅ ∧ socket ≠ fd

structure Becomes (d : Direction) (fds : Finset Nat) (threw : Bool) (p p' : Object) : Prop where
  interface : p'.interface = p.interface
  held : p'.held d = fds
  threw : p'.threw = threw
  ok : p'.Ok d

def isError (a : Answer) : Bool :=
  match a with
  | .value _ => false
  | .error _ => true

inductive Handles (d : Direction) (p : Object) : Move (Syscall × Answer) Answer Object → Prop
  | own (p' : Object) (h : Becomes d (p.held d) p.threw p p') : Handles d p (.own p')
  | creates (call : Syscall) (a : Answer) (resume : Answer → Object) (hcreates : call.creates = true)
      (hfd : ∀ fd ∈ call.fd, fd ∈ p.held d)
      (hvalue : ∀ n, n ∉ p.held d → Becomes d (insert n (p.held d)) p.threw p (resume (.value n)))
      (herror : ∀ errno, Becomes d (p.held d) true p (resume (.error errno))) :
    Handles d p (.call (call, a) resume)
  | uses (call : Syscall) (a : Answer) (resume : Answer → Object) (hcreates : call.creates = false)
      (hclose : ∀ fd, call ≠ .close fd) (hfd : ∀ fd ∈ call.fd, fd ∈ p.held d)
      (h : ∀ a, Becomes d (p.held d) (p.threw || isError a) p (resume a)) :
    Handles d p (.call (call, a) resume)
  | closes (fd : Nat) (a : Answer) (resume : Answer → Object) (hfd : fd ∈ p.held d)
      (h : ∀ a, Becomes d ((p.held d).erase fd) p.threw p (resume a)) :
    Handles d p (.call (.close fd, a) resume)

structure Proper (d : Direction) : Prop where
  file (fd len : Nat) : (d.transferFile fd len).fd = some fd ∧ (d.transferFile fd len).creates = false ∧
    ∀ fd', d.transferFile fd len ≠ .close fd'
  socket (fd len : Nat) : (d.transferSocket fd len).fd = some fd ∧ (d.transferSocket fd len).creates = false ∧
    ∀ fd', d.transferSocket fd len ≠ .close fd'

theorem proper_input : Proper input := by
  constructor <;> exact fun _ _ => ⟨rfl, rfl, by simp [input]⟩

theorem proper_output : Proper output := by
  constructor <;> exact fun _ _ => ⟨rfl, rfl, by simp [output]⟩

theorem held_create {d : Direction} {interface : Interface} :
    (create interface).held d = interface.reserved d := by
  simp [held, create, handles, reserved]

theorem held_of_destroyed {d : Direction} {p : Object} (h : p.pos = .destroyed) :
    p.held d = if p.handle = none then p.interface.reserved d else ∅ := by
  simp only [held, h, reserved]

theorem ok_create {d : Direction} (interface : Interface) : (create interface).Ok d := by
  constructor <;> simp [create]

theorem eq_of_mem_reserved {d : Direction} {interface : Interface} {fd : Nat}
    (h : fd ∈ interface.reserved d) : fd = d.standard := by
  unfold Interface.reserved at h
  split at h
  . split at h
    . exact Finset.mem_singleton.mp h
    . simp at h
  . simp at h

section Moves

variable {d : Direction} {p : Object} {enableCache : Bool} {x : Choice} {a : Answer} {fd : Nat}
variable {move : Move (Syscall × Answer) Answer Object}

def plain (pos : Pos) : Bool :=
  match pos with
  | .closeListener _ | .destroyed => false
  | _ => true

theorem held_of_plain (h : plain p.pos = true) : p.held d = p.handles ∪ p.reserved d := by
  unfold held
  split
  next hpos => simp [hpos, plain] at h
  next hpos => simp [hpos, plain] at h
  . rfl

theorem becomes_pos (h : p.Ok d) (hplain : plain p.pos = true) {pos : Pos} {threw : Bool}
    (hplain' : plain pos = true) (hcreated : pos ≠ .created) (htransfer : pos = .transfer → p.handle ≠ none)
    (hsocket : pos ∈ [.bind, .listen, .accept, .connect] → p.reserved d = ∅) :
    Becomes d (p.held d) threw p { p with pos, threw } where
  interface := rfl
  held := by
    rw [held_of_plain hplain, held_of_plain hplain']
    rfl
  threw := rfl
  ok :=
    { created := fun hpos => absurd hpos hcreated
      transfer := htransfer
      standard := h.standard
      socket := hsocket
      listener := by
        rintro socket fd rfl
        cases hplain' }

theorem becomes_fail (h : p.Ok d) (hplain : plain p.pos = true) : Becomes d (p.held d) true p p.fail :=
  becomes_pos h hplain rfl (by simp) (by simp) (by simp)

theorem handles_uses {call : Syscall} {go : Nat → Object} (h : p.Ok d) (hplain : plain p.pos = true)
    (hfd : p.handle = some fd) (hcall : call.fd = some fd ∧ call.creates = false ∧ ∀ fd', call ≠ .close fd')
    (hgo : ∀ n, Becomes d (p.held d) p.threw p (go n)) : Handles d p (.call (call, a) (p.check go)) := by
  refine .uses call a _ hcall.2.1 hcall.2.2 ?_ ?_
  . rw [hcall.1, held_of_plain hplain]
    simp [handles, hfd]
  . intro a
    cases a with
    | value n => simpa [check, isError] using hgo n
    | error errno => simpa [check, isError] using becomes_fail h hplain

theorem handles_creates {call : Syscall} {pos : Pos} (h : p.Ok d) (hpos : p.pos = .created)
    (hcreates : call.creates = true) (hcall : call.fd = none) (hreserved : p.reserved d = ∅)
    (hplain : plain pos = true) (hcreated : pos ≠ .created) :
    Handles d p (.call (call, a) (p.check fun fd => { p with handle := some fd, pos })) := by
  have hbefore : plain p.pos = true := by rw [hpos]; rfl
  have hheld : p.held d = ∅ := by
    rw [held_of_plain hbefore, hreserved]
    simp [handles, h.created hpos]
  refine .creates call a _ hcreates (by simp [hcall]) ?_ ?_
  . intro n _
    have hreserved' : ({ p with handle := some n, pos } : Object).reserved d = ∅ := hreserved
    refine ⟨rfl, ?_, rfl, ?_⟩
    . rw [hheld, check, held_of_plain hplain, hreserved']
      rfl
    . constructor
      . exact fun hpos => absurd hpos hcreated
      . exact fun _ => by simp [check]
      . exact fun _ _ => by simp [check, hreserved']
      . exact fun _ => hreserved'
      . rintro socket _ rfl
        cases hplain
  . intro errno
    exact becomes_fail h hbefore

theorem handles_transfer {call : Syscall} (h : p.Ok d) (hpos : p.pos = .transfer) (hfd : p.handle = some fd)
    (hcall : call.fd = some fd ∧ call.creates = false ∧ ∀ fd', call ≠ .close fd') :
    Handles d p (p.moveTransfer call a) := by
  have hplain : plain p.pos = true := by rw [hpos]; rfl
  apply handles_uses h hplain hfd hcall
  intro n
  apply becomes_pos h hplain
  . split <;> rfl
  . split <;> simp
  . simp [hfd]
  . split <;> simp

theorem handles_initialize (h : p.Ok d) (hpos : p.pos = .created) :
    Handles d p (p.moveInitialize d enableCache a) := by
  have hplain : plain p.pos = true := by rw [hpos]; rfl
  unfold moveInitialize
  split
  next name hinterface =>
    by_cases hname : isStandard name = true
    . rw [if_pos hname]
      have hreserved : p.reserved d = {d.standard} := by
        simp [reserved, Interface.reserved, hinterface, hname]
      apply Handles.own
      refine ⟨rfl, ?_, rfl, ?_⟩
      . rw [held_of_plain hplain, held_of_plain rfl]
        show {d.standard} ∪ p.reserved d = p.handles ∪ p.reserved d
        simp [hreserved, handles, h.created hpos]
      . constructor
        . simp
        . exact fun _ => by simp
        . rintro fd hfd
          cases hfd
          exact hreserved.subset
        . simp
        . simp
    . rw [if_neg hname]
      have hreserved : p.reserved d = ∅ := by simp [reserved, Interface.reserved, hinterface, hname]
      exact handles_creates h hpos rfl rfl hreserved rfl (by simp)
  next services hinterface =>
    have hreserved : p.reserved d = ∅ := by simp [reserved, Interface.reserved, hinterface]
    apply handles_creates h hpos rfl rfl hreserved
    . split <;> rfl
    . split <;> simp

theorem handles_accept (h : p.Ok d) (hpos : p.pos = .accept) (hfd : p.handle = some fd) :
    Handles d p (.call (.accept fd, a) (p.check fun socket => { p with pos := .closeListener socket })) := by
  have hplain : plain p.pos = true := by rw [hpos]; rfl
  have hreserved : p.reserved d = ∅ := h.socket (by simp [hpos])
  have hheld : p.held d = {fd} := by
    rw [held_of_plain hplain, hreserved]
    simp [handles, hfd]
  refine .creates _ a _ rfl (by simp [Syscall.fd, hheld]) ?_ ?_
  . intro n hn
    rw [hheld, Finset.mem_singleton] at hn
    refine ⟨rfl, ?_, rfl, ?_⟩
    . rw [hheld]
      simp [check, held, handles, hfd]
    . constructor
      . simp [check]
      . simp [check]
      . exact h.standard
      . simp [check]
      . rintro socket fd' ⟨rfl⟩ hfd'
        refine ⟨hreserved, ?_⟩
        rintro rfl
        exact hn (Option.some.inj (hfd'.symm.trans hfd))
  . intro errno
    exact becomes_fail h hplain

theorem handles_closeListener {socket : Nat} (h : p.Ok d) (hpos : p.pos = .closeListener socket)
    (hfd : p.handle = some fd) :
    Handles d p (.call (.close fd, a) fun _ => { p with handle := some socket, pos := .transfer }) := by
  obtain ⟨hreserved, hne⟩ := h.listener socket fd hpos hfd
  have hheld : p.held d = {socket, fd} := by simp [held, hpos, handles, hfd]
  refine .closes fd a _ (by simp [hheld]) ?_
  intro a
  have hreserved' : ({ p with handle := some socket, pos := .transfer } : Object).reserved d = ∅ := hreserved
  refine ⟨rfl, ?_, rfl, ?_⟩
  . rw [hheld, held_of_plain rfl, hreserved']
    rw [Finset.erase_insert_of_ne hne, Finset.erase_singleton]
    rfl
  . constructor
    . simp
    . exact fun _ => by simp
    . exact fun _ _ => by simp [hreserved']
    . exact fun _ => hreserved'
    . simp

theorem handles_socket {addr : Tcpip.SockaddrIn} (h : p.Ok d) (hfd : p.handle = some fd)
    (hmove : p.moveSocket addr fd a = some move) : Handles d p move := by
  unfold moveSocket at hmove
  split at hmove
  next hpos =>
    cases hmove
    have hplain : plain p.pos = true := by rw [hpos]; rfl
    apply handles_uses h hplain hfd ⟨rfl, rfl, by simp⟩
    exact fun _ => becomes_pos h hplain rfl (by simp) (by simp) fun _ => h.socket (by simp [hpos])
  next hpos =>
    cases hmove
    have hplain : plain p.pos = true := by rw [hpos]; rfl
    apply handles_uses h hplain hfd ⟨rfl, rfl, by simp⟩
    exact fun _ => becomes_pos h hplain rfl (by simp) (by simp) fun _ => h.socket (by simp [hpos])
  next hpos =>
    cases hmove
    exact handles_accept h hpos hfd
  next socket hpos =>
    cases hmove
    exact handles_closeListener h hpos hfd
  next hpos =>
    cases hmove
    have hplain : plain p.pos = true := by rw [hpos]; rfl
    apply handles_uses h hplain hfd ⟨rfl, rfl, by simp⟩
    exact fun _ => becomes_pos h hplain rfl (by simp) (by simp [hfd]) (by simp)
  . cases hmove

theorem handles_leave (h : p.Ok d) (hplain : plain p.pos = true) :
    Handles d p (.own { p with pos := .destroy }) :=
  .own _ (becomes_pos h hplain rfl (by simp) (by simp) (by simp))

theorem handles_destroy (h : p.Ok d) (hpos : p.pos = .destroy) (hfd : p.handle = some fd) :
    Handles d p (.call (.close fd, a) fun _ => { p with pos := .destroyed }) := by
  have hplain : plain p.pos = true := by rw [hpos]; rfl
  have hheld : p.held d = {fd} := by
    rw [held_of_plain hplain]
    simp only [handles, hfd]
    exact Finset.union_eq_left.mpr (h.standard fd hfd)
  refine .closes fd a _ (by simp [hheld]) ?_
  intro a
  refine ⟨rfl, ?_, rfl, ?_⟩
  . rw [hheld, Finset.erase_singleton]
    simp [held, hfd]
  . exact ⟨by simp, by simp, h.standard, by simp, by simp⟩

theorem handles_of_move (hd : Proper d) (h : p.Ok d) (hmove : p.move d enableCache x = some move) :
    Handles d p move := by
  unfold Object.move at hmove
  split at hmove
  next len a hpos =>
    cases hmove
    exact handles_initialize h hpos
  next hpos =>
    cases hmove
    exact handles_leave h (by rw [hpos]; rfl)
  next len a hpos =>
    obtain ⟨fd, hfd, hmove⟩ := Option.map_eq_some_iff.mp hmove
    split at hmove
    . cases hmove
      exact handles_transfer h hpos hfd (hd.file fd len)
    . cases hmove
      exact handles_transfer h hpos hfd (hd.socket fd len)
  next hpos =>
    cases hmove
    exact handles_leave h (by rw [hpos]; rfl)
  next len a hpos =>
    split at hmove
    next hnone =>
      cases hmove
      have hplain : plain p.pos = true := by rw [hpos]; rfl
      refine .own _ ⟨rfl, ?_, rfl, by simp, by simp, h.standard, by simp, by simp⟩
      rw [held_of_plain hplain]
      simp [held, handles, hnone, reserved]
    next fd hfd =>
      cases hmove
      exact handles_destroy h hpos hfd
  . cases hmove
  next len a _ _ _ _ =>
    split at hmove
    next services fd hinterface hfd => exact handles_socket h hfd hmove
    . cases hmove
  . cases hmove

end Moves

def failed (l : Option ((Syscall × Answer) × Answer)) : Bool :=
  match l with
  | some ((.close _, _), _) => false
  | some ((_, a), _) => isError a
  | none => false

/--
The descriptors that somebody who has `fds` has after a step, by what the step shows: it adds what is new
and takes away what is closed.
-/
def owns (fds : Finset Nat) (l : Option ((Syscall × Answer) × Answer)) : Finset Nat :=
  match l with
  | some ((.close fd, _), _) => fds.erase fd
  | some ((call, _), .value n) => if call.creates then insert n fds else fds
  | _ => fds

def touched (l : Option ((Syscall × Answer) × Answer)) : Option Nat := l.bind fun y => y.1.1.fd

theorem failed_of_not_close {call : Syscall} {a e : Answer} (h : ∀ fd, call ≠ .close fd) :
    failed (some ((call, a), e)) = isError a := by
  cases call <;> first | rfl | simp at h

theorem owns_of_creates {fds : Finset Nat} {call : Syscall} {a : Answer} {n : Nat} (h : call.creates = true) :
    owns fds (some ((call, a), .value n)) = insert n fds := by
  cases call <;> first | rfl | simp [Syscall.creates] at h

theorem owns_of_error {fds : Finset Nat} {call : Syscall} {a : Answer} {errno : Int}
    (h : ∀ fd, call ≠ .close fd) : owns fds (some ((call, a), .error errno)) = fds := by
  cases call <;> first | rfl | simp at h

theorem owns_of_uses {fds : Finset Nat} {call : Syscall} {a e : Answer} (h : ∀ fd, call ≠ .close fd)
    (hcreates : call.creates = false) : owns fds (some ((call, a), e)) = fds := by
  cases call <;> cases e <;> first | rfl | exact absurd rfl (h _) | cases hcreates

section Step

variable {ν : Type} {view : Finset Nat → ν} {d : Direction} {enableCache : Bool} {p p' : Object} {x : Choice}
variable {table table' : Finset Nat} {l : Option ((Syscall × Answer) × Answer)}

structure Steps (d : Direction) (table : Finset Nat) (p : Object) (table' : Finset Nat) (p' : Object)
    (l : Option ((Syscall × Answer) × Answer)) : Prop where
  change : Shares.Change table (p.held d) table' (p'.held d)
  owns : p'.held d = Object.owns (p.held d) l
  ok : p'.Ok d
  interface : p'.interface = p.interface
  threw : p'.threw = (p.threw || failed l)
  touched (fd : Nat) : touched l = some fd → fd ∈ p.held d

theorem Becomes.steps {fds : Finset Nat} {threw : Bool} (h : Becomes d fds threw p p')
    (hchange : Shares.Change table (p.held d) table' fds) (howns : fds = Object.owns (p.held d) l)
    (hthrew : threw = (p.threw || failed l))
    (htouched : ∀ fd, Object.touched l = some fd → fd ∈ p.held d) : Steps d table p table' p' l where
  change := by
    rw [h.held]
    exact hchange
  owns := h.held.trans howns
  ok := h.ok
  interface := h.interface
  threw := h.threw.trans hthrew
  touched := htouched

theorem steps_of_programStep (hd : Proper d) (hok : p.Ok d) (hsub : p.held d ⊆ table)
    (h : Machine.ProgramStep system view { move := fun _ => Object.move d enableCache } table p x table'
      p' l) :
    Steps d table p table' p' l := by
  cases h with
  | own hmove =>
    cases handles_of_move hd hok hmove with
    | own _ h => exact h.steps (.refl hsub) rfl (by simp [failed]) (by simp [Object.touched])
  | call hmove hstep =>
    cases handles_of_move hd hok hmove with
    | creates call a _ hcreates hfd hvalue herror =>
      obtain ⟨hserves, rfl⟩ := serves_of_step hstep
      have hclose : ∀ fd, call ≠ .close fd := by
        rintro fd rfl
        cases hcreates
      cases hserves with
      | closed fd hcall => exact absurd hcall (hclose fd)
      | created fd _ ha hnew =>
        subst ha
        apply (hvalue fd fun hfd => hnew (hsub hfd)).steps (.insert hsub hnew)
        . exact (owns_of_creates hcreates).symm
        . simp [failed_of_not_close hclose, isError]
        . exact hfd
      | done _ ha =>
        obtain ⟨errno, rfl⟩ := ha hcreates
        apply (herror errno).steps (.refl hsub)
        . exact (owns_of_error hclose).symm
        . simp [failed_of_not_close hclose, isError]
        . exact hfd
    | uses call a _ hcreates hclose hfd h =>
      obtain ⟨hserves, rfl⟩ := serves_of_step hstep
      cases hserves with
      | closed fd hcall => exact absurd hcall (hclose fd)
      | created fd hcreates' => simp [hcreates] at hcreates'
      | done =>
        apply (h _).steps (.refl hsub)
        . exact (owns_of_uses hclose hcreates).symm
        . rw [failed_of_not_close hclose]
        . exact hfd
    | closes fd a _ hfd h =>
      obtain ⟨hserves, rfl⟩ := serves_of_step hstep
      have htouched {a e : Answer} (fd' : Nat)
          (h : Object.touched (some ((Syscall.close fd, a), e)) = some fd') : fd' ∈ p.held d := by
        cases h
        exact hfd
      cases hserves with
      | closed fd' hcall =>
        cases hcall
        exact (h _).steps (.erase hsub hfd) rfl (by simp [failed]) (htouched ·)
      | created _ hcreates => cases hcreates
      | done hcall => exact absurd rfl (hcall fd)

end Step

end Object

end Io
