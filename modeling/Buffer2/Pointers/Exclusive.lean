import Buffer2.Pointers.Custody

/-!
This module contains the proofs about the ownership of the objects over whole programs: it stays exclusive
in all of them, and which ones leave a pointer to a deleted object or an object without an owner.
-/

namespace SmartPointer

variable {ι α : Type}

theorem owned_ne_of_ptr_ne {p : OwnPtr α} {a : α} (h : p.ptr ≠ some a) : p.owned ≠ some a := by
  intro howned
  exact h (OwnPtr.owned_eq_some_iff.mp howned).2

theorem live_detach [DecidableEq α] {heap : Heap α} {p : OwnPtr α} {a : α} (h : heap.live a = true)
    (hne : p.owned ≠ some a) : (p.detach heap).live a = true := by
  rw [OwnPtr.detach_eq, Heap.live_delete, if_neg hne]
  exact h

theorem valid_initial (live : α → Bool) : (State.initial (ι := ι) live).custody.Valid where
  exclusive x y a hx := by cases hx
  live x a hx := by cases hx
  once := rfl

section Vars

variable [DecidableEq ι] {s : State ι α} {x : ι} {p : OwnPtr α}

theorem State.vars_write : (s.write x (some p)).vars x = some p := by
  simp [State.write]

theorem State.vars_store {heap : Heap α} : (s.store x (heap, p)).vars x = some p := by
  simp [State.store]

end Vars

def Operation.target (op : Operation ι α) : Option ι :=
  match op with
  | .reset x | .resetTo x _ | .assign x _ => some x
  | _ => none

def Operation.Releases (op : Operation ι α) (s : State ι α) (a : α) : Prop :=
  ∃ x, (op = .release x ∨ op = .toRef x) ∧ s.Owns x a

structure Sound (s : State ι α) (op : Operation ι α) (s' : State ι α) : Prop where
  exclusive (x y : ι) (a : α) : s'.Owns x a → s'.Owns y a → x = y
  once : s'.heap.twice = false
  attached (x : ι) (p : OwnPtr α) (a : α) : op.target = some x → s'.vars x = some p → p.ptr = some a →
    s.heap.live a = true → s'.heap.live a = true
  kept (a : α) : (∃ x, s.Owns x a) ∨ op.given = some a →
    (∃ x, s'.Owns x a) ∨ s'.heap.live a = false ∨ op.Releases s a

/--
The variable does not own the object that it is to refer to, and it does not point to the object that it
is to own.
-/
structure Unaliased (s : State ι α) (op : Operation ι α) : Prop where
  object (x : ι) (o : α) (p : OwnPtr α) : op = .resetTo x (.object o) ∨ op = .assign x (.object o) →
    s.vars x = some p → p.owned ≠ some o
  given (x : ι) (v : Operand ι α) (p : OwnPtr α) (a : α) : op = .resetTo x v ∨ op = .assign x v →
    s.vars x = some p → v.given = some a → p.ptr ≠ some a

variable [DecidableEq ι] [DecidableEq α]

section Sound

variable {s s' : State ι α} {x : ι} {a : α} {p : OwnPtr α} {v : Operand ι α} {op : Operation ι α}

theorem ResetStep.takes (h : ResetStep s x p v s') (hne : p.ptr ≠ some a) (ha : v.given = some a) :
    s'.Owns x a := by
  cases h with
  | object o => cases ha
  | same r q hq heq => cases ha
  | moved r q hq hneq => cases ha
  | kept v own hv =>
    rw [Operand.given_of_raw hv] at ha
    cases own with
    | false => cases ha
    | true => exact absurd ha hne
  | replaced v ptr own hv hneq =>
    refine ⟨_, State.vars_store, ?_⟩
    rw [← OwnPtr.owned_eq_some_iff, OwnPtr.owned_attach, ← Operand.given_of_raw hv]
    exact ha

theorem Effect.takes (h : Effect s op s') (hun : Unaliased s op) (ha : op.given = some a) :
    ∃ x, s'.Owns x a := by
  cases h with
  | constructed _ x p hop hx hp =>
    refine ⟨x, _, State.vars_write, ?_⟩
    rw [← OwnPtr.owned_eq_some_iff, hp]
    exact ha
  | resetTo _ x v p _ hopv hx hreset =>
    have hgiven : v.given = some a := (Operation.given_of_resetTo hopv).symm.trans ha
    exact ⟨x, hreset.takes (hun.given x v p a hopv hx hgiven) hgiven⟩
  | copied x r q hx hr => cases ha
  | destructed x p hx => cases ha
  | released _ x p hop hx =>
    obtain rfl | rfl := hop
    . cases ha
    . cases ha
  | reset x p hx => cases ha
  | created b => cases ha
  | destroyed b => cases ha

theorem Effect.kept (h : Effect s op s') (hop : Admissible s op) (hun : Unaliased s op)
    (ha : (∃ x, s.Owns x a) ∨ op.given = some a) :
    (∃ x, s'.Owns x a) ∨ s'.heap.live a = false ∨ op.Releases s a := by
  cases ha with
  | inr ha => exact .inl (h.takes hun ha)
  | inl ha =>
    rw [← custodyOwned_iff] at ha
    obtain ⟨x, hrelease, hforget⟩ | hchange := h.change hop.destroy
    . obtain ⟨y, hy⟩ := ha
      by_cases hyx : y = x
      . right
        right
        rw [hyx] at hy
        exact ⟨x, hrelease, owned_iff.mp hy⟩
      . left
        refine ⟨y, ?_⟩
        rw [← owned_iff, hforget, Custody.owned_put, if_neg hyx]
        exact hy
    . cases hchange.accounted ha with
      | inl ha => exact .inl (custodyOwned_iff.mp ha)
      | inr ha => exact .inr (.inl ha)

theorem ResetStep.attached {q : OwnPtr α} (h : ResetStep s x p v s') (hx : s.vars x = some p)
    (hobject : ∀ o, v = .object o → p.owned ≠ some o) (hq : s'.vars x = some q) (ha : q.ptr = some a)
    (hlive : s.heap.live a = true) : s'.heap.live a = true := by
  cases h with
  | object o =>
    rw [State.vars_store] at hq
    cases hq
    cases ha
    exact live_detach hlive (hobject a rfl)
  | kept v own hv => exact hlive
  | same r q hr heq => exact hlive
  | replaced v ptr own hv hne =>
    rw [State.vars_store] at hq
    cases hq
    apply live_detach hlive
    apply owned_ne_of_ptr_ne
    rw [← ha]
    exact Ne.symm hne
  | moved r t hr hne =>
    have hrx := State.ne_of_ptr_ne hx hr hne
    have hvars : ((s.store x (p.detach s.heap, .attach t.ptr t.own)).write r (some t.release.2)).vars x =
        some (.attach t.ptr t.own) := by
      simp [State.write, State.store, hrx]
    rw [hvars] at hq
    cases hq
    apply live_detach hlive
    apply owned_ne_of_ptr_ne
    rw [← ha]
    exact Ne.symm hne

theorem Effect.attached {q : OwnPtr α} (h : Effect s op s') (hun : Unaliased s op)
    (htarget : op.target = some x) (hq : s'.vars x = some q) (ha : q.ptr = some a)
    (hlive : s.heap.live a = true) : s'.heap.live a = true := by
  cases h with
  | constructed _ y p hop hy hp =>
    obtain rfl | ⟨v, rfl⟩ := hop
    . cases htarget
    . cases htarget
  | resetTo _ y v p _ hopv hy hreset =>
    have hxy : x = y := by
      obtain rfl | rfl := hopv
      . cases htarget
        rfl
      . cases htarget
        rfl
    subst hxy
    apply hreset.attached hy _ hq ha hlive
    rintro o rfl
    exact hun.object x o p hopv hy
  | copied y r q hy hr => cases htarget
  | destructed y p hy => cases htarget
  | released _ y p hop hy =>
    obtain rfl | rfl := hop
    . cases htarget
    . cases htarget
  | reset y p hy =>
    cases htarget
    unfold OwnPtr.resetNull at hq
    rw [State.vars_store] at hq
    cases hq
    cases ha
  | created b => cases htarget
  | destroyed b => cases htarget

theorem sound_of_unaliased (h : s.step op = some s') (hop : Admissible s op) (hvalid : s.custody.Valid)
    (hun : Unaliased s op) : Sound s op s' := by
  have heffect := step_cases h
  have hvalid' := heffect.valid hop hvalid
  constructor
  . intro x y a hx hy
    exact hvalid'.exclusive x y a (owned_iff.mpr hx) (owned_iff.mpr hy)
  . exact hvalid'.once
  . intro x p a htarget hp ha hlive
    exact heffect.attached hun htarget hp ha hlive
  . intro a ha
    exact heffect.kept hop hun ha

theorem resetTo_of_step (hopv : op = .resetTo x v ∨ op = .assign x v) (h : s.step op = some s') :
    s.resetTo x v = some s' ∧ op.target = some x := by
  obtain rfl | rfl := hopv
  . exact ⟨h, rfl⟩
  . exact ⟨assign_cases h, rfl⟩

theorem unaliased_of_sound (h : s.step op = some s') (hop : Admissible s op) (hsound : Sound s op s') :
    Unaliased s op := by
  constructor
  . intro x o p hopv hx howned
    obtain ⟨hreset, htarget⟩ := resetTo_of_step hopv h
    have hs' : s' = s.store x (p.resetObject s.heap o) := by
      simpa [State.resetTo, hx] using hreset.symm
    subst hs'
    have hlive := hsound.attached x _ o htarget State.vars_store rfl (hop.object x o (.inr hopv))
    have hdead : (p.detach s.heap).live o = false := by
      rw [OwnPtr.detach_eq, Heap.live_delete, if_pos howned]
    rw [show (s.store x (p.resetObject s.heap o)).heap = p.detach s.heap from rfl, hdead] at hlive
    cases hlive
  . intro x v p a hopv hx hgiven hptr
    obtain ⟨hreset, _⟩ := resetTo_of_step hopv h
    have hsame := Operation.given_of_resetTo hopv
    obtain ⟨q, hq, hstep⟩ := resetTo_cases hreset
    rw [hx] at hq
    cases hq
    have hfree := hop.given a (hsame.trans hgiven)
    have hcustody : s'.custody = s.custody := by
      cases hstep with
      | kept v own hv => exact State.custody_store_same hx
      | object o => cases hgiven
      | same r q hr heq => cases hgiven
      | moved r q hr hne => cases hgiven
      | replaced v ptr own hv hne =>
        rw [Operand.given_of_raw hv] at hgiven
        cases own with
        | false => cases hgiven
        | true => exact absurd (hgiven.trans hptr.symm) hne
    obtain howned | hdead | ⟨y, hrelease, _⟩ := hsound.kept a (.inr (hsame.trans hgiven))
    . rw [← custodyOwned_iff, hcustody] at howned
      exact hfree.2 howned
    . rw [show s'.heap = s.heap from congrArg Custody.heap hcustody, hfree.1] at hdead
      cases hdead
    . obtain rfl | rfl := hopv
      . obtain hrelease | hrelease := hrelease
        . cases hrelease
        . cases hrelease
      . obtain hrelease | hrelease := hrelease
        . cases hrelease
        . cases hrelease

end Sound

def OwnershipIsExclusive (ι α : Type) [DecidableEq ι] [DecidableEq α] : Prop :=
  ∀ (live : α → Bool) (tr : List (Operation ι α × State ι α × State ι α)) (s : State ι α),
    (machine ι α).Runs Admissible (.initial live) tr s → ∀ x ∈ tr, Sound x.2.1 x.1 x.2.2

theorem sound_iff (live : α → Bool) (tr : List (Operation ι α × State ι α × State ι α)) (s : State ι α)
    (h : (machine ι α).Runs Admissible (.initial live) tr s) :
    (∀ x ∈ tr, Sound x.2.1 x.1 x.2.2) ↔ ∀ x ∈ tr, Unaliased x.2.1 x.1 := by
  have hsteps : ∀ x ∈ tr, Sound x.2.1 x.1 x.2.2 ↔ Unaliased x.2.1 x.1 := by
    refine Machine.Runs.forall_mem (I := fun s => s.custody.Valid) ?_ h (valid_initial live)
    intro s op s' e hvalid hop hstep
    simp only [machine, Option.map_eq_some_iff] at hstep
    obtain ⟨t, hstep, heq⟩ := hstep
    cases heq
    refine ⟨(step_cases hstep).valid hop hvalid, ?_, ?_⟩
    . exact unaliased_of_sound hstep hop
    . exact sound_of_unaliased hstep hop hvalid
  constructor
  . intro hall x hx
    exact (hsteps x hx).mp (hall x hx)
  . intro hall x hx
    exact (hsteps x hx).mpr (hall x hx)

def owningSeven : State Nat Nat := (State.initial fun _ => true).write 0 (some (.ofPointer (some 7)))

def danglingSeven : State Nat Nat :=
  owningSeven.store 0 ((OwnPtr.ofPointer (some 7)).resetObject owningSeven.heap 7)

/--
The trace of `own_ptr<T> p(&o); p = *p;`.
-/
def selfAssignment : List (Operation Nat Nat × State Nat Nat × State Nat Nat) :=
  [(.constructFrom 0 (.pointer (some 7)), .initial fun _ => true, owningSeven),
    (.assign 0 (.object 7), owningSeven, danglingSeven)]

theorem runs_selfAssignment :
    ∃ s, (machine Nat Nat).Runs Admissible (.initial fun _ => true) selfAssignment s := by
  refine ⟨_, .cons ?_ rfl (.cons ?_ rfl (.nil _))⟩
  . constructor
    . rintro a _
      refine ⟨rfl, ?_⟩
      rintro ⟨x, hx⟩
      cases hx
    . intro x o _
      rfl
    . intro a ha
      cases ha
    . intro a ha
      cases ha
  . constructor
    . intro a ha
      cases ha
    . intro x o _
      rfl
    . intro a ha
      cases ha
    . intro a ha
      cases ha

theorem not_unaliased_selfAssignment : ¬ Unaliased owningSeven (.assign 0 (.object 7)) := by
  intro h
  exact h.object 0 7 (.ofPointer (some 7)) (.inr rfl) rfl rfl

theorem not_ownershipIsExclusive : ¬ OwnershipIsExclusive Nat Nat := by
  intro h
  obtain ⟨s, hruns⟩ := runs_selfAssignment
  have hsound := h _ _ _ hruns (.assign 0 (.object 7), owningSeven, danglingSeven) (by simp [selfAssignment])
  have hlive := hsound.attached 0 _ 7 rfl State.vars_store rfl rfl
  cases hlive

theorem sound_iff_selfAssignment : ¬ ∀ x ∈ selfAssignment, Sound x.2.1 x.1 x.2.2 := by
  obtain ⟨s, hruns⟩ := runs_selfAssignment
  rw [sound_iff _ _ _ hruns]
  intro hall
  have hunaliased := hall (.assign 0 (.object 7), owningSeven, danglingSeven) (by simp [selfAssignment])
  exact not_unaliased_selfAssignment hunaliased

end SmartPointer
