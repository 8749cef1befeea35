import Buffer2.Pointers.OwnPtr

/-!
This module contains what one operation on an `own_ptr` does, and what becomes of the ownership of the
objects.
-/

namespace SmartPointer

variable {ι α : Type}

namespace OwnPtr

variable {p : OwnPtr α} {ptr : Option α} {own : Bool} {a : α}

theorem owned_eq_some_iff : p.owned = some a ↔ p.own = true ∧ p.ptr = some a := by
  unfold owned
  split
  . next h => simp [h]
  . next h => simp [h]

theorem owned_attach : (attach ptr own).owned = if own then ptr else none := by
  unfold attach owned
  cases own <;> cases ptr <;> rfl

end OwnPtr

/--
The pointer and the flag that `reset` gets for all operands that are no variables and no objects.
-/
def Operand.raw (v : Operand ι α) : Option (Option α × Bool) :=
  match v with
  | .pointer p => some (p, true)
  | .pointerOwn p own => some (p, own)
  | .object _ => none
  | .ownPtr _ => none
  | .ref r => some (r.ptr, r.own)
  | .autoPtr r => some (r, true)

theorem Operand.given_of_raw {v : Operand ι α} {ptr : Option α} {own : Bool} (h : v.raw = some (ptr, own)) :
    v.given = if own then ptr else none := by
  cases v with
  | object o => cases h
  | ownPtr r => cases h
  | _ =>
    cases h
    rfl

def Operation.given (op : Operation ι α) : Option α :=
  match op with
  | .constructFrom _ v | .resetTo _ v | .assign _ v => v.given
  | _ => none

theorem Operation.given_of_resetTo {op : Operation ι α} {x : ι} {v : Operand ι α}
    (h : op = .resetTo x v ∨ op = .assign x v) : op.given = v.given := by
  obtain rfl | rfl := h
  . rfl
  . rfl

theorem State.ne_of_ptr_ne {s : State ι α} {x r : ι} {p q : OwnPtr α} (hx : s.vars x = some p)
    (hr : s.vars r = some q) (hne : q.ptr ≠ p.ptr) : x ≠ r := by
  rintro rfl
  rw [hx] at hr
  cases hr
  contradiction

variable [DecidableEq ι]

theorem OwnPtr.detach_eq [DecidableEq α] (p : OwnPtr α) (heap : Heap α) :
    p.detach heap = heap.delete p.owned := by
  unfold OwnPtr.detach OwnPtr.owned
  split
  . rfl
  . rfl

theorem init_cases {s s' : State ι α} {x : ι} {p : OwnPtr α} (h : s.init x p = some s') :
    s.vars x = none ∧ s' = s.write x (some p) := by
  unfold State.init at h
  split at h
  . next hx =>
    cases h
    exact ⟨hx, rfl⟩
  . cases h

variable [DecidableEq α]

inductive ResetStep (s : State ι α) (x : ι) (p : OwnPtr α) : Operand ι α → State ι α → Prop
  | object (o : α) :
    ResetStep s x p (.object o) (s.store x (p.detach s.heap, { ptr := some o, own := false }))
  | kept (v : Operand ι α) (own : Bool) (hv : v.raw = some (p.ptr, own)) :
    ResetStep s x p v (s.store x (s.heap, p))
  | replaced (v : Operand ι α) (ptr : Option α) (own : Bool) (hv : v.raw = some (ptr, own))
      (hne : ptr ≠ p.ptr) : ResetStep s x p v (s.store x (p.detach s.heap, .attach ptr own))
  | same (r : ι) (q : OwnPtr α) (hq : s.vars r = some q) (heq : q.ptr = p.ptr) :
    ResetStep s x p (.ownPtr r) s
  | moved (r : ι) (q : OwnPtr α) (hq : s.vars r = some q) (hne : q.ptr ≠ p.ptr) :
    ResetStep s x p (.ownPtr r)
      ((s.store x (p.detach s.heap, .attach q.ptr q.own)).write r (some q.release.2))

inductive Effect (s : State ι α) : Operation ι α → State ι α → Prop
  | constructed (op : Operation ι α) (x : ι) (p : OwnPtr α)
      (hop : op = .construct x ∨ ∃ v, op = .constructFrom x v) (hx : s.vars x = none)
      (hp : p.owned = op.given) : Effect s op (s.write x (some p))
  | copied (x r : ι) (q : OwnPtr α) (hx : s.vars x = none) (hr : s.vars r = some q) :
    Effect s (.constructFrom x (.ownPtr r))
      ((s.write x (some { ptr := q.ptr, own := q.own })).write r (some q.release.2))
  | destructed (x : ι) (p : OwnPtr α) (hx : s.vars x = some p) :
    Effect s (.destruct x) ({ s with heap := p.detach s.heap }.write x none)
  | released (op : Operation ι α) (x : ι) (p : OwnPtr α) (hop : op = .release x ∨ op = .toRef x)
      (hx : s.vars x = some p) : Effect s op (s.write x (some p.release.2))
  | reset (x : ι) (p : OwnPtr α) (hx : s.vars x = some p) :
    Effect s (.reset x) (s.store x (p.resetNull s.heap))
  | resetTo (op : Operation ι α) (x : ι) (v : Operand ι α) (p : OwnPtr α) (s' : State ι α)
      (hop : op = .resetTo x v ∨ op = .assign x v) (hx : s.vars x = some p)
      (h : ResetStep s x p v s') : Effect s op s'
  | created (a : α) : Effect s (.create a) { s with heap := s.heap.create a }
  | destroyed (a : α) : Effect s (.destroy a) { s with heap := s.heap.delete (some a) }

section Cases

variable {s s' : State ι α} {x : ι} {p : OwnPtr α} {v : Operand ι α} {op : Operation ι α}

theorem constructFrom_cases (h : s.constructFrom x v = some s') : Effect s (.constructFrom x v) s' := by
  have hop : ∃ w, Operation.constructFrom x v = .constructFrom x w := ⟨v, rfl⟩
  cases v with
  | ownPtr r =>
    unfold State.constructFrom at h
    simp only [Option.bind_eq_bind, Option.bind_eq_some_iff] at h
    obtain ⟨q, hq, t, hinit, h⟩ := h
    cases h
    obtain ⟨hx, rfl⟩ := init_cases hinit
    exact .copied x r q hx hq
  | pointer p =>
    obtain ⟨hx, rfl⟩ := init_cases h
    apply Effect.constructed _ x _ (.inr hop) hx
    cases p <;> rfl
  | pointerOwn p own =>
    obtain ⟨hx, rfl⟩ := init_cases h
    apply Effect.constructed _ x _ (.inr hop) hx
    exact OwnPtr.owned_attach
  | object o =>
    obtain ⟨hx, rfl⟩ := init_cases h
    exact .constructed _ x _ (.inr hop) hx rfl
  | ref r =>
    obtain ⟨hx, rfl⟩ := init_cases h
    exact .constructed _ x _ (.inr hop) hx rfl
  | autoPtr r =>
    obtain ⟨hx, rfl⟩ := init_cases h
    exact .constructed _ x _ (.inr hop) hx rfl

theorem resetPointer_step {ptr : Option α} {own : Bool} (hv : v.raw = some (ptr, own)) :
    ResetStep s x p v (s.store x (p.resetPointer s.heap ptr own)) := by
  unfold OwnPtr.resetPointer
  split
  . next hne => exact .replaced v ptr own hv hne
  . next heq =>
    rw [not_not] at heq
    rw [heq] at hv
    exact .kept v own hv

theorem resetTo_cases (h : s.resetTo x v = some s') : ∃ p, s.vars x = some p ∧ ResetStep s x p v s' := by
  unfold State.resetTo at h
  simp only [Option.bind_eq_bind, Option.bind_eq_some_iff] at h
  obtain ⟨p, hx, h⟩ := h
  refine ⟨p, hx, ?_⟩
  cases v with
  | object o =>
    cases h
    exact .object o
  | ownPtr r =>
    simp only [Option.bind_eq_some_iff] at h
    obtain ⟨q, hq, h⟩ := h
    split at h
    . next hne =>
      cases h
      exact .moved r q hq hne
    . next heq =>
      cases h
      exact .same r q hq (not_not.mp heq)
  | pointer ptr =>
    cases h
    exact resetPointer_step rfl
  | pointerOwn ptr own =>
    cases h
    exact resetPointer_step rfl
  | ref r =>
    cases h
    exact resetPointer_step rfl
  | autoPtr r =>
    cases h
    exact resetPointer_step rfl

theorem assign_cases (h : s.assign x v = some s') : s.resetTo x v = some s' := by
  cases v with
  | pointerOwn ptr own => cases h
  | _ => exact h

theorem step_cases (h : s.step op = some s') : Effect s op s' := by
  cases op with
  | construct x =>
    obtain ⟨hx, rfl⟩ := init_cases h
    exact .constructed _ x _ (.inl rfl) hx rfl
  | constructFrom x v => exact constructFrom_cases h
  | resetTo x v =>
    obtain ⟨p, hx, hreset⟩ := resetTo_cases h
    exact .resetTo _ x v p s' (.inl rfl) hx hreset
  | assign x v =>
    obtain ⟨p, hx, hreset⟩ := resetTo_cases (assign_cases h)
    exact .resetTo _ x v p s' (.inr rfl) hx hreset
  | create a =>
    cases h
    exact .created a
  | destroy a =>
    cases h
    exact .destroyed a
  | destruct x =>
    simp only [State.step, Option.bind_eq_bind, Option.bind_eq_some_iff] at h
    obtain ⟨p, hx, h⟩ := h
    cases h
    exact .destructed x p hx
  | release x =>
    simp only [State.step, Option.bind_eq_bind, Option.bind_eq_some_iff] at h
    obtain ⟨p, hx, h⟩ := h
    cases h
    exact .released _ x p (.inl rfl) hx
  | toRef x =>
    simp only [State.step, Option.bind_eq_bind, Option.bind_eq_some_iff] at h
    obtain ⟨p, hx, h⟩ := h
    cases h
    exact .released _ x p (.inr rfl) hx
  | reset x =>
    simp only [State.step, Option.bind_eq_bind, Option.bind_eq_some_iff] at h
    obtain ⟨p, hx, h⟩ := h
    cases h
    exact .reset x p hx

end Cases
end SmartPointer
