import Buffer2.Ipc.Steps

/-!
This module contains the proofs about the threads that wait for an `Event`: no one sleeps while it is
signalled, and who is notified by `Set` resumes unless a `Reset` overtakes him.
-/

namespace IPC

namespace World

variable {ι : Type}

/--
While the guard `Prompt` is kept, `State` stays set until the last thread that has been notified has the
lock again.
-/
structure Fresh (w : World ι) : Prop where
  state (t : ι) : w.pc t = .notified → w.state = true
  reset (t u : ι) : w.pc t = .notified → w.pc u ≠ .resetStore

theorem fresh_init : (init ι).Fresh where
  state t ht := by cases ht
  reset t u ht := by cases ht

end World

variable {ι : Type} [DecidableEq ι]

def own (t : ι) (tr : Trace ι) : List Outcome :=
  (tr.filter fun x => x.1.1 = t).map fun x => x.2.outcome

/--
The thread `t` has been notified and takes the lock, finds `State` set and returns, as soon as the lock is
free. Until then the thread that holds the lock can go on.
-/
structure Resumes (t : ι) (tr : Trace ι) : Prop where
  steps : (own t tr).take 3 <+: [.locked, .read true, .returned true]
  ready (before : Trace ι) (x : (ι × Operation) × Observation ι) (after : Trace ι) :
    tr = before ++ x :: after → (own t before).length < 3 →
    (x.2.before.step (x.2.before.owner.getD t) .go).isSome = true

structure Sound (tr : Trace ι) : Prop where
  awake (x : (ι × Operation) × Observation ι) (t : ι) : x ∈ tr → x.2.after.state = true →
    (∀ u, (x.2.after.pc u).inSet = false) → x.2.after.pc t ≠ .asleep
  returned (before during after : Trace ι) (t : ι) (e e' : Observation ι) :
    tr = before ++ ((t, .wait), e) :: during ++ ((t, .go), e') :: after → e'.outcome = .returned true →
    ∃ x ∈ during ++ [((t, .go), e')], x.2.after.state = true
  resumed (before after : Trace ι) (a : ι × Operation) (e : Observation ι) (t : ι) :
    tr = before ++ (a, e) :: after → e.outcome = .notifiedAll → e.before.pc t = .asleep → Resumes t after

/--
No `Reset` takes the lock while a thread that has been notified still requests it.
-/
def Prompt (w : World ι) (a : ι × Operation) : Prop :=
  a.2 = .go → w.pc a.1 = .resetRequest → ∀ t, w.pc t ≠ .notified

theorem own_append (t : ι) (tr tr' : Trace ι) : own t (tr ++ tr') = own t tr ++ own t tr' := by
  simp [own]

theorem own_singleton (t : ι) (a : ι × Operation) (e : Observation ι) :
    own t [(a, e)] = if a.1 = t then [e.outcome] else [] := by
  by_cases h : a.1 = t
  . simp [own, h]
  . simp [own, h]

namespace World

variable {w w' : World ι} {t u : ι} {op : Operation} {o : Outcome} {p : Pc}

namespace Step

theorem pc_of_ne (h : Step w u op o w') (hne : t ≠ u) :
    w'.pc t = w.pc t ∨ (o = .notifiedAll ∧ w'.pc t = (w.pc t).notifyAll) := by
  cases h with
  | notifiedAll hpc =>
    right
    simp [World.notifyAll, hne]
  | _ =>
    left
    simp [goto, World.locked, release, store, hne]

theorem pc_of_ne_asleep (h : Step w u op o w') (hne : t ≠ u) (hpc : w.pc t ≠ .asleep) :
    w'.pc t = w.pc t := by
  obtain hsame | ⟨_, hnotify⟩ := h.pc_of_ne hne
  . exact hsame
  . rw [hnotify, Pc.notifyAll_of_ne_asleep hpc]

theorem pc_ne_notified (h : Step w t op o w') : w'.pc t ≠ .notified := by
  cases h with
  | locked p hpc =>
    rw [show (w.locked t p).pc t = p by simp [World.locked, goto]]
    rintro rfl
    cases Pc.inside_of_request hpc
  | _ => simp [goto, release, store, World.notifyAll]

theorem state_eq (h : Step w u op o w') (hu : (w.pc u).inside = false) : w'.state = w.state := by
  cases h with
  | setStored hpc | resetStored hpc =>
    rw [hpc] at hu
    cases hu
  | _ => rfl

theorem state_eq_true (h : Step w u op o w') (hu : w.pc u ≠ .resetStore) (hstate : w.state = true) :
    w'.state = true := by
  cases h with
  | resetStored hpc => exact absurd hpc hu
  | setStored hpc => rfl
  | _ => exact hstate

theorem resetStore_cases (h : Step w u op o w') (hpc : w'.pc t = .resetStore) :
    w.pc t = .resetStore ∨ (t = u ∧ op = .go ∧ w.pc u = .resetRequest) := by
  by_cases htu : t = u
  . subst htu
    right
    cases h with
    | locked p hreq =>
      rw [show (w.locked t p).pc t = p by simp [World.locked, goto]] at hpc
      subst hpc
      exact ⟨rfl, rfl, Pc.request_eq_resetStore hreq⟩
    | _ => simp [goto, release, store, World.notifyAll] at hpc
  . left
    have hasleep : w.pc t ≠ .asleep := by
      intro hasleep
      obtain hsame | ⟨_, hnotify⟩ := h.pc_of_ne htu
      . rw [hsame, hasleep] at hpc
        cases hpc
      . rw [hnotify, hasleep] at hpc
        cases hpc
    rw [← hpc, h.pc_of_ne_asleep htu hasleep]

theorem notifiedAll_cases (h : Step w u op .notifiedAll w') :
    w.pc u = .setNotify ∧ w' = w.notifyAll u .setRelease := by
  cases h with
  | notifiedAll hpc => exact ⟨hpc, rfl⟩

theorem returned_state (h : Step w t op (.returned true) w') (hinv : w.Inv) : w'.state = true := by
  cases h with
  | waitSeen hpc hstate => exact hstate
  | waitReturned _ hpc =>
    apply hinv.signalled t
    rw [hpc]
    rfl

theorem of_notified (h : Step w t op o w') (hpc : w.pc t = .notified) :
    o = .locked ∧ w' = w.locked t .waitLoop := by
  cases h with
  | locked p hreq =>
    rw [hpc] at hreq
    cases hreq
    exact ⟨rfl, rfl⟩
  | finished hfin => simp [hpc] at hfin
  | _ => simp_all

theorem of_waitLoop (h : Step w t op o w') (hpc : w.pc t = .waitLoop) (hstate : w.state = true) :
    o = .read true ∧ w' = w.goto t (.waitRelease true) := by
  cases h with
  | loopSeen => exact ⟨rfl, rfl⟩
  | locked p hreq => simp [hpc, Pc.request] at hreq
  | finished hfin => simp [hpc] at hfin
  | _ => simp_all

theorem of_waitRelease {result : Bool} (h : Step w t op o w') (hpc : w.pc t = .waitRelease result) :
    o = .returned result := by
  cases h with
  | waitReturned result' hpc' =>
    rw [hpc] at hpc'
    cases hpc'
    rfl
  | locked p hreq => simp [hpc, Pc.request] at hreq
  | finished hfin => simp [hpc] at hfin
  | _ => simp_all

end Step

theorem isSome_go_of_inside (h : (w.pc t).inside = true) : (w.go t).isSome = true := by
  cases hpc : w.pc t with
  | waitLoop => by_cases hstate : w.state = true <;> simp [go, hpc, hstate]
  | waitRelease | setStore | setNotify | setRelease | resetStore | resetRelease => simp [go, hpc]
  | _ => simp [hpc, Pc.inside] at h

theorem pc_notifyAll (hu : w.pc u = .setNotify) (ht : w.pc t = .asleep) :
    (w.notifyAll u .setRelease).pc t = .notified := by
  have htu : t ≠ u := by
    rintro rfl
    rw [ht] at hu
    cases hu
  simp [notifyAll, htu, ht, Pc.notifyAll]

namespace Fresh

theorem of_notifyAll (hinv : w.Inv) (hu : w.pc u = .setNotify) : (w.notifyAll u .setRelease).Fresh := by
  constructor
  . intro t _
    exact hinv.signalled u (by rw [hu]; rfl)
  . intro t v _ hv
    obtain hv | ⟨_, _, hreset⟩ := (Step.notifiedAll hu).resetStore_cases hv
    . have huv : u = v := hinv.lock.exclusive (by rw [hu]; rfl) (by rw [hv]; rfl)
      rw [huv, hv] at hu
      cases hu
    . rw [hu] at hreset
      cases hreset

theorem of_step (h : w.Fresh) (hinv : w.Inv) (hprompt : Prompt w (u, op)) (hstep : Step w u op o w') :
    w'.Fresh := by
  by_cases ho : o = .notifiedAll
  . subst ho
    obtain ⟨hu, rfl⟩ := hstep.notifiedAll_cases
    exact of_notifyAll hinv hu
  . have hsame : ∀ t, w'.pc t = .notified → w.pc t = .notified := by
      intro t ht
      have htu : t ≠ u := by
        rintro rfl
        exact hstep.pc_ne_notified ht
      obtain hsame | ⟨hnotify, _⟩ := hstep.pc_of_ne htu
      . rw [← hsame, ht]
      . exact absurd hnotify ho
    constructor
    . intro t ht
      exact hstep.state_eq_true (h.reset t u (hsame t ht)) (h.state t (hsame t ht))
    . intro t v ht hv
      obtain hv | ⟨_, hgo, hreset⟩ := hstep.resetStore_cases hv
      . exact h.reset t v (hsame t ht) hv
      . exact hprompt hgo hreset t (hsame t ht)

end Fresh

/--
How far a thread that has been notified has got by its own steps, and that nothing keeps it from returning.
-/
inductive Resuming (w : World ι) (t : ι) : List Outcome → Prop
  | notified (hpc : w.pc t = .notified) : Resuming w t []
  | locked (hpc : w.pc t = .waitLoop) (hstate : w.state = true) : Resuming w t [.locked]
  | seen (hpc : w.pc t = .waitRelease true) : Resuming w t [.locked, .read true]
  | returned (os : List Outcome) : Resuming w t (.locked :: .read true :: .returned true :: os)

namespace Resuming

variable {os : List Outcome}

theorem own_step (h : Resuming w t os) (hfresh : w.Fresh) (hstep : Step w t op o w') :
    Resuming w' t (os ++ [o]) := by
  cases h with
  | returned os => exact .returned _
  | notified hpc =>
    obtain ⟨rfl, rfl⟩ := hstep.of_notified hpc
    apply Resuming.locked
    . simp [World.locked, goto]
    . exact hfresh.state t hpc
  | locked hpc hstate =>
    obtain ⟨rfl, rfl⟩ := hstep.of_waitLoop hpc hstate
    apply Resuming.seen
    simp [goto]
  | seen hpc =>
    rw [hstep.of_waitRelease hpc]
    exact .returned []

theorem other_step (h : Resuming w t os) (hinv : w.Inv) (hne : t ≠ u) (hstep : Step w u op o w') :
    Resuming w' t os := by
  cases h with
  | returned os => exact .returned os
  | notified hpc =>
    apply Resuming.notified
    rw [hstep.pc_of_ne_asleep hne (by simp [hpc]), hpc]
  | locked hpc hstate =>
    have hu : (w.pc u).inside = false := by
      apply Bool.of_not_eq_true
      intro hu
      exact hne (hinv.lock.exclusive (by rw [hpc]; rfl) hu)
    apply Resuming.locked
    . rw [hstep.pc_of_ne_asleep hne (by simp [hpc]), hpc]
    . rw [hstep.state_eq hu, hstate]
  | seen hpc =>
    apply Resuming.seen
    rw [hstep.pc_of_ne_asleep hne (by simp [hpc]), hpc]

theorem ready (h : Resuming w t os) (hinv : w.Inv) (hlen : os.length < 3) :
    (w.step (w.owner.getD t) .go).isSome = true := by
  cases howner : w.owner with
  | some u =>
    apply isSome_go_of_inside
    rw [hinv.lock, howner]
    rfl
  | none =>
    cases h with
    | notified hpc => simp [step, go, request, hpc, howner]
    | locked hpc hstate => exact isSome_go_of_inside (by rw [Option.getD_none, hpc]; rfl)
    | seen hpc => exact isSome_go_of_inside (by rw [Option.getD_none, hpc]; rfl)
    | returned os =>
      simp only [List.length_cons] at hlen
      omega

end Resuming

end World

open World

variable {w w' : World ι} {t : ι} {G : World ι → ι × Operation → Prop} {tr : Trace ι}

theorem inv_runs (h : (machine ι).Runs G (.init ι) tr w) : w.Inv := by
  apply Machine.Runs.invariant _ h inv_init
  intro w a w' e hinv _ hstep
  exact hinv.of_step (machine_cases hstep).2.2

theorem fresh_runs (h : (machine ι).Runs Prompt w tr w') (hinv : w.Inv) (hfresh : w.Fresh) :
    w'.Inv ∧ w'.Fresh := by
  apply Machine.Runs.invariant (I := fun w => w.Inv ∧ w.Fresh) _ h ⟨hinv, hfresh⟩
  intro w a w' e ⟨hinv, hfresh⟩ hprompt hstep
  obtain ⟨_, _, hstep⟩ := machine_cases hstep
  exact ⟨hinv.of_step hstep, hfresh.of_step hinv hprompt hstep⟩

theorem resuming_runs (h : (machine ι).Runs Prompt w tr w') (hinv : w.Inv) (hfresh : w.Fresh)
    (hpc : w.pc t = .notified) : w'.Inv ∧ w'.Fresh ∧ w'.Resuming t (own t tr) := by
  apply h.history (I := fun tr w => w.Inv ∧ w.Fresh ∧ w.Resuming t (own t tr)) _
    ⟨hinv, hfresh, .notified hpc⟩
  intro tr w a w' e ⟨hinv, hfresh, hresuming⟩ hprompt hstep
  obtain ⟨_, _, hstep⟩ := machine_cases hstep
  refine ⟨hinv.of_step hstep, hfresh.of_step hinv hprompt hstep, ?_⟩
  rw [own_append, own_singleton]
  split
  . next hown =>
    subst hown
    exact hresuming.own_step hfresh hstep
  . next hother =>
    rw [List.append_nil]
    exact hresuming.other_step hinv (Ne.symm hother) hstep

theorem resumes_of_prompt (h : (machine ι).Runs Prompt w tr w') (hinv : w.Inv) (hfresh : w.Fresh)
    (hpc : w.pc t = .notified) : Resumes t tr := by
  constructor
  . have hresuming := (resuming_runs h hinv hfresh hpc).2.2
    generalize own t tr = os at hresuming ⊢
    cases hresuming with
    | _ => simp
  . rintro before x after rfl hlen
    obtain ⟨v, hbefore, hafter⟩ := h.split
    obtain ⟨hinv, _, hresuming⟩ := resuming_runs hbefore hinv hfresh hpc
    cases hafter with
    | cons _ hstep _ =>
      rw [(machine_cases hstep).1]
      exact hresuming.ready hinv hlen

theorem observed_runs (h : (machine ι).Runs G (.init ι) tr w) :
    ∀ x ∈ tr, x.2.after.Inv ∧ (x.2.outcome = .returned true → x.2.after.state = true) := by
  refine Machine.Runs.forall_mem (I := World.Inv) ?_ h inv_init
  intro w a w' e hinv _ hstep
  obtain ⟨_, rfl, hstep⟩ := machine_cases hstep
  refine ⟨hinv.of_step hstep, hinv.of_step hstep, ?_⟩
  intro hreturned
  rw [hreturned] at hstep
  exact hstep.returned_state hinv

theorem awake_and_returned (h : (machine ι).Runs G (.init ι) tr w) :
    (∀ x ∈ tr, ∀ t, x.2.after.state = true → (∀ u, (x.2.after.pc u).inSet = false) →
      x.2.after.pc t ≠ .asleep) ∧
    ∀ x ∈ tr, x.2.outcome = .returned true → x.2.after.state = true := by
  constructor
  . intro x hx t hstate hset hasleep
    obtain ⟨u, hu⟩ := (observed_runs h x hx).1.asleep t hasleep hstate
    have hnot := hset u
    rw [hu] at hnot
    cases hnot
  . intro x hx hreturned
    exact (observed_runs h x hx).2 hreturned

theorem sound_of_prompt (h : (machine ι).Runs Prompt (.init ι) tr w) : Sound tr := by
  obtain ⟨hawake, hreturned⟩ := awake_and_returned h
  constructor
  . intro x t hx
    exact hawake x hx t
  . rintro before during after t e e' rfl he'
    refine ⟨((t, .go), e'), by simp, ?_⟩
    exact hreturned ((t, .go), e') (by simp) he'
  . rintro before after a e t rfl hnotified hasleep
    obtain ⟨v, hbefore, hafter⟩ := h.split
    obtain ⟨hinv, hfresh⟩ := fresh_runs hbefore inv_init fresh_init
    cases hafter with
    | cons hprompt hstep hafter =>
      obtain ⟨rfl, _, hstep⟩ := machine_cases hstep
      apply resumes_of_prompt hafter (hinv.of_step hstep) (hfresh.of_step hinv hprompt hstep)
      rw [hnotified] at hstep
      obtain ⟨hu, rfl⟩ := hstep.notifiedAll_cases
      exact pc_notifyAll hu hasleep

theorem runs_resumed : ∃ tr w, (machine Nat).Runs Prompt (.init Nat) tr w ∧
    own 0 tr = [.called, .read false, .locked, .slept, .locked, .read true, .returned true] ∧
      own 1 tr =
        [.called, .read false, .locked, .stored true, .notifiedAll, .finished, .called, .locked] := by
  refine ⟨_, _, .cons (a := (0, .wait)) nofun rfl (.cons (a := (0, .go)) nofun rfl
    (.cons (a := (0, .go)) nofun rfl (.cons (a := (0, .go)) nofun rfl
    (.cons (a := (1, .set)) nofun rfl (.cons (a := (1, .go)) nofun rfl
    (.cons (a := (1, .go)) nofun rfl (.cons (a := (1, .go)) nofun rfl
    (.cons (a := (1, .go)) nofun rfl (.cons (a := (1, .go)) nofun rfl
    (.cons (a := (0, .go)) nofun rfl (.cons (a := (0, .go)) nofun rfl
    (.cons (a := (0, .go)) nofun rfl (.cons (a := (1, .reset)) nofun rfl
    (.single (a := (1, .go)) ?_ rfl)))))))))))))), rfl, rfl⟩
  rintro _ _ (_ | _ | t) <;> nofun

theorem sound_resumed : ∃ tr w, (machine Nat).Runs Prompt (.init Nat) tr w ∧
    own 0 tr = [.called, .read false, .locked, .slept, .locked, .read true, .returned true] ∧
      Sound tr := by
  obtain ⟨tr, w, hruns, hown, _⟩ := runs_resumed
  exact ⟨tr, w, hruns, hown, sound_of_prompt hruns⟩

end IPC
