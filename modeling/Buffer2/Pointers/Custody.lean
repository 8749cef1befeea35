import Buffer2.Pointers.Steps

/-!
This module contains the proofs that the operations on `own_ptr` change the ownership of the objects only
in ways that keep it exclusive.
-/

namespace SmartPointer

variable {ι α : Type}

namespace State

def custody (s : State ι α) : Custody ι α where
  heap := s.heap
  owned x := (s.vars x).bind OwnPtr.owned

variable {s : State ι α} {x : ι} {p q : OwnPtr α}

theorem custody_owned (h : s.vars x = some p) : s.custody.owned x = p.owned := by
  simp [custody, h]

theorem custody_owned_none (h : s.vars x = none) : s.custody.owned x = none := by
  simp [custody, h]

variable [DecidableEq ι]

theorem custody_write (s : State ι α) (x : ι) (p : Option (OwnPtr α)) :
    (s.write x p).custody = s.custody.put x (p.bind OwnPtr.owned) := by
  ext1
  . rfl
  . funext y
    simp only [custody, write, Custody.put, Function.update_apply]
    split
    . rfl
    . rfl

theorem custody_store_same (h : s.vars x = some p) : (s.store x (s.heap, p)).custody = s.custody := by
  ext1
  . rfl
  . funext y
    simp only [custody, store, Function.update_apply]
    split
    . next hyx => rw [hyx, h]
    . rfl

variable [DecidableEq α]

theorem custody_store (h : s.vars x = some p) :
    (s.store x (p.detach s.heap, q)).custody = (s.custody.drop x).put x q.owned := by
  ext1
  . show p.detach s.heap = s.heap.delete (s.custody.owned x)
    rw [custody_owned h, OwnPtr.detach_eq]
  . funext y
    simp only [custody, store, Custody.put, Custody.drop, Function.update_apply]
    split
    . rfl
    . rfl

theorem custody_destruct (h : s.vars x = some p) :
    ({ s with heap := p.detach s.heap }.write x none).custody = (s.custody.drop x).put x none := by
  ext1
  . show p.detach s.heap = s.heap.delete (s.custody.owned x)
    rw [custody_owned h, OwnPtr.detach_eq]
  . funext y
    simp only [custody, write, Custody.put, Custody.drop, Function.update_apply]
    split
    . rfl
    . rfl

end State

def State.Owns (s : State ι α) (x : ι) (a : α) : Prop :=
  ∃ p, s.vars x = some p ∧ p.own = true ∧ p.ptr = some a

theorem owned_iff {s : State ι α} {x : ι} {a : α} : s.custody.owned x = some a ↔ s.Owns x a := by
  simp only [State.custody, State.Owns, Option.bind_eq_some_iff, OwnPtr.owned_eq_some_iff]

theorem custodyOwned_iff {s : State ι α} {a : α} : s.custody.Owned a ↔ ∃ x, s.Owns x a := by
  simp only [Custody.Owned, owned_iff]

variable [DecidableEq ι] [DecidableEq α]

/--
What the program sees to: objects are handed over only if no one owns them, references are references to
objects, and no object is destroyed that is owned.
-/
structure Admissible (s : State ι α) (op : Operation ι α) : Prop where
  given (a : α) : op.given = some a → s.heap.live a = true ∧ ¬ s.custody.Owned a
  object (x : ι) (o : α) : op = .constructFrom x (.object o) ∨ op = .resetTo x (.object o) ∨
    op = .assign x (.object o) → s.heap.live o = true
  create (a : α) : op = .create a → s.heap.live a = false
  destroy (a : α) : op = .destroy a → s.heap.live a = true ∧ ¬ s.custody.Owned a

section Change

variable {s s' : State ι α} {x : ι} {p : OwnPtr α} {v : Operand ι α} {op : Operation ι α}

theorem ResetStep.change (h : ResetStep s x p v s') (hx : s.vars x = some p) :
    s.custody.Change v.given s'.custody := by
  cases h with
  | object o =>
    rw [State.custody_store hx]
    exact .replace x none (.inl rfl)
  | kept v own hv =>
    rw [State.custody_store_same hx]
    exact .same
  | replaced v ptr own hv hne =>
    rw [State.custody_store hx, OwnPtr.owned_attach]
    exact .replace x _ (.inr (Operand.given_of_raw hv).symm)
  | same r q hq heq => exact .same
  | moved r q hq hne =>
    have hrx := State.ne_of_ptr_ne hx hq hne
    rw [State.custody_write, State.custody_store hx, OwnPtr.owned_attach]
    have howned : (if q.own then q.ptr else none) = s.custody.owned r := by
      rw [State.custody_owned hq]
      rfl
    rw [howned, Custody.put_comm hrx]
    exact .move x r hrx

theorem Effect.change (h : Effect s op s')
    (hdestroy : ∀ a, op = .destroy a → s.heap.live a = true ∧ ¬ s.custody.Owned a) :
    (∃ x, (op = .release x ∨ op = .toRef x) ∧ s'.custody = s.custody.put x none) ∨
      s.custody.Change op.given s'.custody := by
  cases h with
  | released _ x p hop hx =>
    left
    refine ⟨x, hop, ?_⟩
    rw [State.custody_write]
    rfl
  | constructed _ x p hop hx hp =>
    right
    have hchange := Custody.Change.replace (c := s.custody) x p.owned (.inr hp)
    rw [Custody.drop_of_owned_none (State.custody_owned_none hx)] at hchange
    rw [State.custody_write]
    exact hchange
  | copied x r q hx hr =>
    right
    have hrx : x ≠ r := by
      rintro rfl
      rw [hx] at hr
      cases hr
    have hchange : s.custody.Change none _ := .move x r hrx
    rw [Custody.drop_of_owned_none (State.custody_owned_none hx), State.custody_owned hr] at hchange
    rw [State.custody_write, State.custody_write, Custody.put_comm hrx]
    exact hchange
  | destructed x p hx =>
    right
    rw [State.custody_destruct hx]
    exact .replace x none (.inl rfl)
  | reset x p hx =>
    right
    unfold OwnPtr.resetNull
    rw [State.custody_store hx]
    exact .replace x none (.inl rfl)
  | resetTo _ x v p _ hopv hx hreset =>
    right
    rw [Operation.given_of_resetTo hopv]
    exact hreset.change hx
  | created a => exact .inr (.create a)
  | destroyed a =>
    obtain ⟨hlive, hfree⟩ := hdestroy a rfl
    exact .inr (.destroy a hlive hfree)

theorem Effect.valid (h : Effect s op s') (hop : Admissible s op) (hvalid : s.custody.Valid) :
    s'.custody.Valid := by
  obtain ⟨x, _, hforget⟩ | hchange := h.change hop.destroy
  . rw [hforget]
    exact hvalid.forget x
  . exact hchange.valid hvalid hop.given

theorem Effect.owned {a : α} (h : Effect s op s') (ha : s'.custody.Owned a) :
    s.custody.Owned a ∨ op.given = some a := by
  by_cases hop : ∃ b, op = .destroy b
  . obtain ⟨b, rfl⟩ := hop
    cases h with
    | destroyed b => exact .inl ha
    | constructed _ x p hop => simp at hop
    | released _ x p hop => simp at hop
    | resetTo _ x v p _ hop => simp at hop
  . obtain ⟨x, _, hforget⟩ | hchange := h.change fun b hb => absurd ⟨b, hb⟩ hop
    . rw [hforget] at ha
      exact .inl ((Custody.owned_of_put ha).resolve_right (by simp))
    . exact hchange.owned ha

end Change

end SmartPointer
