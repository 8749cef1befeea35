import Buffer2.Ipc.Event

/-!
This module contains everything that a step on an `Event` can do, with one constructor of `World.Step`
for each way in which it can go, and the invariant that relates the threads, the lock and `State`.
-/

namespace IPC

namespace Pc

def request : Pc → Option Pc
  | .waitRequest | .notified | .woken => some .waitLoop
  | .failed => some (.waitRelease false)
  | .setRequest => some .setStore
  | .resetRequest => some .resetStore
  | _ => none

/--
The thread has found `State` set, or has set it, and has had the lock ever since.
-/
def signalled : Pc → Bool
  | .waitRelease result => result
  | .setNotify | .setRelease => true
  | _ => false

theorem inside_of_signalled {p : Pc} (h : p.signalled = true) : p.inside = true := by
  cases p <;> simp_all [signalled, inside]

@[simp]
theorem inside_notifyAll (p : Pc) : p.notifyAll.inside = p.inside := by
  cases p <;> rfl

theorem notifyAll_ne_asleep (p : Pc) : p.notifyAll ≠ .asleep := by
  cases p <;> simp [notifyAll]

theorem notifyAll_of_ne_asleep {p : Pc} (h : p ≠ .asleep) : p.notifyAll = p := by
  cases p <;> simp_all [notifyAll]

theorem inside_of_request {p q : Pc} (h : p.request = some q) : q.inside = true := by
  cases p <;> simp_all [request] <;> subst h <;> rfl

theorem request_eq_resetStore {p : Pc} (h : p.request = some .resetStore) : p = .resetRequest := by
  cases p <;> simp_all [request]

theorem signalled_of_request {p q : Pc} (h : p.request = some q) : q.signalled = false := by
  cases p <;> simp_all [request] <;> subst h <;> rfl

end Pc

namespace World

variable {ι : Type}

structure Inv (w : World ι) : Prop where
  lock : Guarded Pc.inside w.owner w.pc
  signalled (t : ι) : (w.pc t).signalled = true → w.state = true
  asleep (t : ι) : w.pc t = .asleep → w.state = true → ∃ u, w.pc u = .setNotify

theorem inv_init : (init ι).Inv where
  lock t := by simp [init, Pc.inside]
  signalled t h := by cases h
  asleep t h := by cases h

variable [DecidableEq ι]

def locked (w : World ι) (t : ι) (p : Pc) : World ι :=
  { w.goto t p with owner := some t }

inductive Step (w : World ι) (t : ι) : Operation → Outcome → World ι → Prop
  | wait (hpc : w.pc t = .idle) : Step w t .wait .called (w.goto t .waitTest)
  | set (hpc : w.pc t = .idle) : Step w t .set .called (w.goto t .setTest)
  | reset (hpc : w.pc t = .idle) : Step w t .reset .called (w.goto t .resetRequest)
  | locked (p : Pc) (hpc : (w.pc t).request = some p) (howner : w.owner = none) :
    Step w t .go .locked (w.locked t p)
  | waitSeen (hpc : w.pc t = .waitTest) (hstate : w.state = true) :
    Step w t .go (.returned true) (w.goto t .idle)
  | waitUnseen (hpc : w.pc t = .waitTest) (hstate : w.state = false) :
    Step w t .go (.read false) (w.goto t .waitRequest)
  | loopSeen (hpc : w.pc t = .waitLoop) (hstate : w.state = true) :
    Step w t .go (.read true) (w.goto t (.waitRelease true))
  | slept (hpc : w.pc t = .waitLoop) (hstate : w.state = false) :
    Step w t .go .slept (w.release t .asleep)
  | woken (hpc : w.pc t = .asleep) : Step w t .wake .woken (w.goto t .woken)
  | failed (hpc : w.pc t = .asleep) : Step w t .fail .failed (w.goto t .failed)
  | waitReturned (result : Bool) (hpc : w.pc t = .waitRelease result) :
    Step w t .go (.returned result) (w.release t .idle)
  | setSeen (hpc : w.pc t = .setTest) (hstate : w.state = true) :
    Step w t .go .finished (w.goto t .idle)
  | setUnseen (hpc : w.pc t = .setTest) (hstate : w.state = false) :
    Step w t .go (.read false) (w.goto t .setRequest)
  | setStored (hpc : w.pc t = .setStore) : Step w t .go (.stored true) (w.store t true .setNotify)
  | notifiedAll (hpc : w.pc t = .setNotify) : Step w t .go .notifiedAll (w.notifyAll t .setRelease)
  | resetStored (hpc : w.pc t = .resetStore) :
    Step w t .go (.stored false) (w.store t false .resetRelease)
  | finished (hpc : w.pc t = .setRelease ∨ w.pc t = .resetRelease) :
    Step w t .go .finished (w.release t .idle)

section Cases

variable {w w' : World ι} {t : ι} {p : Pc} {op : Operation} {o : Outcome}

theorem request_cases (h : w.request t p = some (w', o)) (hpc : (w.pc t).request = some p) :
    Step w t .go o w' := by
  unfold request at h
  split at h
  . next howner =>
    cases h
    exact .locked p hpc howner
  . cases h

theorem go_cases (h : w.go t = some (w', o)) : Step w t .go o w' := by
  unfold go at h
  split at h
  . cases h
  . next hpc =>
    split at h
    . next hstate =>
      cases h
      exact .waitSeen hpc hstate
    . next hstate =>
      cases h
      exact .waitUnseen hpc (Bool.of_not_eq_true hstate)
  . next hpc => exact request_cases h (by rw [hpc]; rfl)
  . next hpc =>
    split at h
    . next hstate =>
      cases h
      exact .loopSeen hpc hstate
    . next hstate =>
      cases h
      exact .slept hpc (Bool.of_not_eq_true hstate)
  . cases h
  . next hpc => exact request_cases h (by rw [hpc]; rfl)
  . next hpc => exact request_cases h (by rw [hpc]; rfl)
  . next hpc => exact request_cases h (by rw [hpc]; rfl)
  . next result hpc =>
    cases h
    exact .waitReturned result hpc
  . next hpc =>
    split at h
    . next hstate =>
      cases h
      exact .setSeen hpc hstate
    . next hstate =>
      cases h
      exact .setUnseen hpc (Bool.of_not_eq_true hstate)
  . next hpc => exact request_cases h (by rw [hpc]; rfl)
  . next hpc =>
    cases h
    exact .setStored hpc
  . next hpc =>
    cases h
    exact .notifiedAll hpc
  . next hpc =>
    cases h
    exact .finished (.inl hpc)
  . next hpc => exact request_cases h (by rw [hpc]; rfl)
  . next hpc =>
    cases h
    exact .resetStored hpc
  . next hpc =>
    cases h
    exact .finished (.inr hpc)

theorem go_of_request (hpc : (w.pc t).request = some p) (howner : w.owner = none) :
    w.go t = some (w.locked t p, .locked) := by
  have hrequest : w.go t = w.request t p := by
    unfold go
    split <;> simp_all [Pc.request]
  rw [hrequest]
  simp [request, locked, howner]

theorem step_cases (h : w.step t op = some (w', o)) : Step w t op o w' := by
  cases op with
  | go => exact go_cases h
  | wait =>
    obtain ⟨hpc, heq⟩ := Option.ite_none_right_eq_some.mp h
    cases heq
    exact .wait hpc
  | set =>
    obtain ⟨hpc, heq⟩ := Option.ite_none_right_eq_some.mp h
    cases heq
    exact .set hpc
  | reset =>
    obtain ⟨hpc, heq⟩ := Option.ite_none_right_eq_some.mp h
    cases heq
    exact .reset hpc
  | wake =>
    obtain ⟨hpc, heq⟩ := Option.ite_none_right_eq_some.mp h
    cases heq
    exact .woken hpc
  | fail =>
    obtain ⟨hpc, heq⟩ := Option.ite_none_right_eq_some.mp h
    cases heq
    exact .failed hpc

theorem Step.step_eq (h : Step w t op o w') : w.step t op = some (w', o) := by
  cases h with
  | locked p hpc howner => exact go_of_request hpc howner
  | finished hpc =>
    obtain hpc | hpc := hpc
    . simp [step, go, hpc]
    . simp [step, go, hpc]
  | _ => simp_all [step, go]

end Cases

namespace Inv

variable {w w' : World ι} {t u : ι} {p : Pc} {op : Operation} {o : Outcome}

theorem moved (h : w.Inv) {owner : Option ι} (hlock : Guarded Pc.inside owner (Function.update w.pc t p))
    (hsignalled : p.signalled = true → w.state = true) (hasleep : p = .asleep → w.state = false)
    (hnotify : w.pc t ≠ .setNotify) : Inv { w with owner, pc := Function.update w.pc t p } where
  lock := hlock
  signalled u hu := by
    simp only [Function.update_apply] at hu
    split at hu
    . exact hsignalled hu
    . exact h.signalled u hu
  asleep u hu hstate := by
    simp only [Function.update_apply] at hu
    split at hu
    . rw [hasleep hu] at hstate
      cases hstate
    . obtain ⟨v, hv⟩ := h.asleep u hu hstate
      have hvt : v ≠ t := by
        rintro rfl
        exact hnotify hv
      exact ⟨v, by simpa [hvt] using hv⟩

theorem stored (h : w.Inv) {state : Bool} (ht : (w.pc t).inside = true) (hp : p.inside = true)
    (hsignalled : p.signalled = true → state = true)
    (hnotify : state = true → p = .setNotify) : (w.store t state p).Inv where
  lock := h.lock.move (hp.trans ht.symm)
  signalled u hu := by
    simp only [store, goto, Function.update_apply] at hu
    split at hu
    . exact hsignalled hu
    . next hut => exact absurd (h.lock.exclusive (Pc.inside_of_signalled hu) ht) hut
  asleep u hu hstate := ⟨t, by simp [store, goto, hnotify hstate]⟩

theorem notifiedAll (h : w.Inv) (ht : w.pc t = .setNotify) : (w.notifyAll t .setRelease).Inv where
  lock := by
    apply (h.lock.map Pc.inside_notifyAll).move
    rw [ht]
    rfl
  signalled u _ := h.signalled t (by rw [ht]; rfl)
  asleep u hu := by
    simp only [notifyAll, Function.update_apply] at hu
    split at hu
    . cases hu
    . exact absurd hu (Pc.notifyAll_ne_asleep _)

theorem of_step (h : w.Inv) (hstep : Step w t op o w') : w'.Inv := by
  cases hstep with
  | wait hpc | set hpc | reset hpc | waitSeen hpc | waitUnseen hpc | setSeen hpc | setUnseen hpc
  | woken hpc | failed hpc =>
    apply h.moved (h.lock.move (by rw [hpc]; rfl)) <;> simp [Pc.signalled, hpc]
  | loopSeen hpc hstate =>
    apply h.moved (h.lock.move (by rw [hpc]; rfl)) <;> simp [hstate, hpc]
  | slept hpc hstate =>
    apply h.moved (h.lock.release (by rw [hpc]; rfl) rfl) <;> simp [Pc.signalled, hstate, hpc]
  | waitReturned result hpc =>
    apply h.moved (h.lock.release (by rw [hpc]; rfl) rfl) <;> simp [Pc.signalled, hpc]
  | finished hpc =>
    obtain hpc | hpc := hpc
    . apply h.moved (h.lock.release (by rw [hpc]; rfl) rfl) <;> simp [Pc.signalled, hpc]
    . apply h.moved (h.lock.release (by rw [hpc]; rfl) rfl) <;> simp [Pc.signalled, hpc]
  | locked p hpc howner =>
    have hlock := h.lock
    rw [howner] at hlock
    apply h.moved (hlock.acquire (Pc.inside_of_request hpc))
    . simp [Pc.signalled_of_request hpc]
    . rintro rfl
      cases Pc.inside_of_request hpc
    . intro ht
      rw [ht] at hpc
      cases hpc
  | setStored hpc => apply h.stored (by rw [hpc]; rfl) <;> simp [Pc.inside]
  | resetStored hpc => apply h.stored (by rw [hpc]; rfl) <;> simp [Pc.inside, Pc.signalled]
  | notifiedAll hpc => exact h.notifiedAll hpc

end Inv

end World

theorem machine_step {ι : Type} [DecidableEq ι] {w w' : World ι} {t : ι} {op : Operation} {o : Outcome}
    (h : World.Step w t op o w') :
    (machine ι).step w (t, op) = some (w', { before := w, outcome := o, after := w' }) := by
  simp [machine, h.step_eq]

theorem machine_cases {ι : Type} [DecidableEq ι] {w w' : World ι} {a : ι × Operation}
    {e : Observation ι} (h : (machine ι).step w a = some (w', e)) :
    e.before = w ∧ e.after = w' ∧ World.Step w a.1 a.2 e.outcome w' := by
  simp only [machine, Option.map_eq_some_iff, Prod.exists, Prod.mk.injEq] at h
  obtain ⟨_, _, hstep, rfl, rfl⟩ := h
  exact ⟨rfl, rfl, World.step_cases hstep⟩

end IPC
