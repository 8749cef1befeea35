import Mathlib.Algebra.GroupWithZero.Nat
import Mathlib.Logic.Function.Basic
import Buffer2.Machine.Basic
import Buffer2.Machine.Recursive

/-!
This module contains the `Mutex` of the POSIX platforms, which is recursive, in use by any number of threads
through objects of the class `Lock`. Every such object belongs to one thread, like an automatic variable.
-/

namespace IPC

structure Mutex (ι : Type) where
  owner : Option ι
  count : Nat

namespace Mutex

variable {ι : Type}

def init (ι : Type) : Mutex ι where
  owner := none
  count := 0

/--
A recursive mutex counts its locks in an `unsigned`.
-/
def countMax : Nat := 2 ^ 32 - 1

variable [DecidableEq ι]

/--
`pthread_mutex_lock`. There is no result while the thread has to wait, otherwise the flag says whether it
has the lock.
-/
def lock (m : Mutex ι) (t : ι) : Option (Mutex ι × Bool) :=
  match m.owner with
  | none => some ({ owner := some t, count := 1 }, true)
  | some u =>
    if u = t then
      if m.count = countMax then some (m, false) else some ({ m with count := m.count + 1 }, true)
    else
      none

def request (m : Mutex ι) (t : ι) (ms : Int) : Option (Mutex ι × Bool) :=
  if ms = -1 then
    m.lock t
  else
    -- `pthread_mutex_timedlock` takes a point in time, and `ms` is one shortly after 1970, so there is no wait.
    -- Only an `ms` beyond the present (above `1.7 * 10 ^ 12`) is waited for: this is then the end of that wait.
    some ((m.lock t).getD (m, false))

/--
`pthread_mutex_unlock`, which fails unless the thread has the lock.
-/
def release (m : Mutex ι) (t : ι) : Mutex ι × Bool :=
  if m.owner = some t then
    if m.count = 1 then (init ι, true) else ({ m with count := m.count - 1 }, true)
  else
    (m, false)

variable {m m' : Mutex ι} {t : ι} {ms : Int} {b : Bool}

inductive Answers (m : Mutex ι) (t : ι) : Mutex ι → Bool → Prop
  | locked (howner : ∀ u, m.owner = some u → u = t) :
    Answers m t { owner := some t, count := m.count + 1 } true
  | refused (hwhy : (∃ u, m.owner = some u ∧ u ≠ t) ∨ m.owner = some t ∧ m.count = countMax) :
    Answers m t m false

theorem lock_cases (hfree : m.owner = none → m.count = 0) (h : m.lock t = some (m', b)) :
    Answers m t m' b := by
  unfold lock at h
  split at h
  . next hnone =>
    cases h
    have hlocked := Answers.locked (m := m) (t := t) (by simp [hnone])
    rwa [hfree hnone] at hlocked
  . next u hsome =>
    split at h
    . next hsame =>
      subst hsame
      split at h
      . next hmax =>
        cases h
        exact .refused (.inr ⟨hsome, hmax⟩)
      . cases h
        have hlocked := Answers.locked (m := m) (t := u) (by simp [hsome])
        rwa [← hsome] at hlocked
    . cases h

theorem lock_eq_none : m.lock t = none ↔ ∃ u, m.owner = some u ∧ u ≠ t := by
  unfold lock
  split
  . next hnone => simp [hnone]
  . next u hsome =>
    by_cases hsame : u = t
    . by_cases hmax : m.count = countMax <;> simp [hsome, hsame, hmax]
    . simp [hsome, hsame]

theorem request_cases (hfree : m.owner = none → m.count = 0) (h : m.request t ms = some (m', b)) :
    Answers m t m' b := by
  unfold request at h
  split at h
  . exact lock_cases hfree h
  . cases hlock : m.lock t with
    | none =>
      rw [hlock] at h
      cases h
      exact .refused (.inl (lock_eq_none.mp hlock))
    | some r =>
      rw [hlock] at h
      cases h
      exact lock_cases hfree hlock

theorem request_eq_none : m.request t ms = none ↔ ms = -1 ∧ ∃ u, m.owner = some u ∧ u ≠ t := by
  unfold request
  split
  . next hms => simp [hms, lock_eq_none]
  . next hms => simp [hms]

end Mutex

namespace Lock

inductive Operation
  | construct (ms : Int)
  | destroy
  | request (ms : Int)
  | release
  | test
  deriving DecidableEq, Repr

/--
The `Lock` objects for one mutex: each of them is either not alive or has the flag `Own`.
-/
structure World (ι κ : Type) where
  mutex : Mutex ι
  own : κ → Option Bool

namespace World

variable {ι κ : Type}

def init (ι κ : Type) : World ι κ where
  mutex := .init ι
  own _ := none

section

variable {thread : κ → ι} {w : World ι κ} {guards : Finset κ} {k : κ}

structure Inv (thread : κ → ι) (w : World ι κ) (guards : Finset κ) : Prop where
  held : HeldBy thread w.mutex.owner w.mutex.count guards
  mem_iff (k : κ) : k ∈ guards ↔ w.own k = some true

theorem inv_init : Inv thread (init ι κ) ∅ where
  held := .empty
  mem_iff k := by simp [init]

theorem Inv.count_eq_zero (h : Inv thread w guards) (hnone : w.mutex.owner = none) : w.mutex.count = 0 := by
  by_contra hpos
  obtain ⟨k, hk⟩ := Finset.card_pos.mp (by rw [← h.held.depth_eq]; omega)
  rw [h.held.owner_of_mem k hk] at hnone
  cases hnone

theorem Inv.exists_other (h : Inv thread w guards) {t : ι} (hother : ∃ u, w.mutex.owner = some u ∧ u ≠ t) :
    ∃ k, w.own k = some true ∧ thread k ≠ t := by
  obtain ⟨u, howner, hne⟩ := hother
  obtain ⟨k, hk, rfl⟩ := h.held.exists_guard howner
  exact ⟨k, (h.mem_iff k).mp hk, hne⟩

theorem Inv.of_own [DecidableEq κ] (h : Inv thread w guards) {own : Option Bool}
    (hbefore : w.own k ≠ some true) (hafter : own ≠ some true) : Inv thread { w with own := Function.update w.own k own } guards where
  held := h.held
  mem_iff k' := by
    show k' ∈ guards ↔ Function.update w.own k own k' = some true
    by_cases hk : k' = k
    . subst hk
      rw [h.mem_iff, Function.update_self]
      exact iff_of_false hbefore hafter
    . rw [h.mem_iff, Function.update_of_ne hk]

end

variable [DecidableEq ι] [DecidableEq κ] (thread : κ → ι)

def set (w : World ι κ) (k : κ) (r : Mutex ι × Bool) (own : Option Bool) : World ι κ × Bool :=
  ({ mutex := r.1, own := Function.update w.own k own }, r.2)

def request (w : World ι κ) (k : κ) (ms : Int) : Option (World ι κ × Bool) :=
  (w.mutex.request (thread k) ms).map fun r => w.set k r (some r.2)

/--
The objects answer with the result of the function. The destructor has none, it answers with that of its
`Release`.
-/
def step (w : World ι κ) (x : κ × Operation) : Option (World ι κ × Bool) :=
  match x.2, w.own x.1 with
  | .construct ms, none => w.request thread x.1 ms
  | .destroy, some true => some (w.set x.1 (w.mutex.release (thread x.1)) none)
  | .destroy, some false => some (w.set x.1 (w.mutex, true) none)
  | .request _, some true => some (w, true)
  | .request ms, some false => w.request thread x.1 ms
  | .release, some true => some (w.set x.1 (w.mutex.release (thread x.1)) (some false))
  | .release, some false => some (w, false)
  | .test, some own => some (w, own)
  | _, _ => none

def machine : Machine (World ι κ) (κ × Operation) Bool where
  step := step thread

section Invariant

variable {thread} {w w' : World ι κ} {guards : Finset κ} {k : κ} {x : κ × Operation} {b : Bool}

theorem Inv.request {ms : Int} (h : Inv thread w guards) (hbefore : w.own k ≠ some true)
    (hstep : w.request thread k ms = some (w', b)) : ∃ guards', Inv thread w' guards' := by
  unfold World.request at hstep
  obtain ⟨⟨m, answer⟩, hrequest, hset⟩ := Option.map_eq_some_iff.mp hstep
  cases hset
  cases Mutex.request_cases h.count_eq_zero hrequest with
  | locked howner =>
    have hnot : k ∉ guards := by rwa [h.mem_iff]
    refine ⟨insert k guards, h.held.acquire hnot howner, ?_⟩
    intro k'
    by_cases hk : k' = k
    . subst hk
      simp
    . simp [hk, h.mem_iff]
  | refused => exact ⟨guards, h.of_own hbefore (by simp)⟩

theorem Inv.release {o : Option Bool} (h : Inv thread w guards) (hown : w.own k = some true)
    (hafter : o ≠ some true) :
    (w.mutex.release (thread k)).2 = true ∧
      Inv thread (w.set k (w.mutex.release (thread k)) o).1 (guards.erase k) := by
  have hk : k ∈ guards := (h.mem_iff k).mpr hown
  have hheld := h.held.release hk
  have hmem (k' : κ) : k' ∈ guards.erase k ↔ Function.update w.own k o k' = some true := by
    by_cases hsame : k' = k
    . subst hsame
      simp [hafter]
    . simp [hsame, h.mem_iff]
  unfold Mutex.release
  rw [if_pos (h.held.owner_of_mem k hk)]
  split
  . next hone =>
    rw [hone, if_pos rfl] at hheld
    exact ⟨rfl, hheld, hmem⟩
  . next hone =>
    rw [if_neg hone] at hheld
    exact ⟨rfl, hheld, hmem⟩

theorem inv_step (h : Inv thread w guards) (hstep : w.step thread x = some (w', b)) :
    (∃ guards', Inv thread w' guards') ∧ (x.2 = .destroy → b = true) := by
  unfold step at hstep
  split at hstep
  next ms hop hown => exact ⟨h.request (by simp [hown]) hstep, by simp [hop]⟩
  next hop hown =>
    cases hstep
    obtain ⟨hreleased, hinv⟩ := h.release (o := none) hown (by simp)
    exact ⟨⟨_, hinv⟩, fun _ => hreleased⟩
  next hop hown =>
    cases hstep
    exact ⟨⟨guards, h.of_own (by simp [hown]) (by simp)⟩, fun _ => rfl⟩
  next ms hop hown =>
    cases hstep
    exact ⟨⟨guards, h⟩, fun _ => rfl⟩
  next ms hop hown => exact ⟨h.request (by simp [hown]) hstep, by simp [hop]⟩
  next hop hown =>
    cases hstep
    exact ⟨⟨_, (h.release (o := some false) hown (by simp)).2⟩, by simp [hop]⟩
  next hop hown =>
    cases hstep
    exact ⟨⟨guards, h⟩, by simp [hop]⟩
  next own hop hown =>
    cases hstep
    exact ⟨⟨guards, h⟩, by simp [hop]⟩
  . cases hstep

theorem inv_runs {G : World ι κ → κ × Operation → Prop} {tr : List ((κ × Operation) × Bool)}
    (hruns : (machine thread).Runs G (init ι κ) tr w) : ∃ guards, Inv thread w guards := by
  apply hruns.invariant (I := fun w => ∃ guards, Inv thread w guards)
  . rintro w x w' b ⟨guards, h⟩ _ hstep
    exact (inv_step h hstep).1
  . exact ⟨∅, inv_init⟩

/--
What the objects can rely on. A request fails when another thread has the mutex, and after `2 ^ 32 - 1`
nested ones.
-/
structure Safe (thread : κ → ι) (w : World ι κ) : Prop where
  exclusive (k k' : κ) : w.own k = some true → w.own k' = some true → thread k = thread k'
  release (k : κ) : w.own k = some true → (w.mutex.release (thread k)).2 = true
  free (t : ι) (ms : Int) : (∀ k, w.own k ≠ some true) → ∃ m, w.mutex.request t ms = some (m, true)
  waits (t : ι) (ms : Int) : w.mutex.request t ms = none →
    ms = -1 ∧ ∃ k, w.own k = some true ∧ thread k ≠ t
  refused (t : ι) (ms : Int) (m : Mutex ι) : w.mutex.request t ms = some (m, false) →
    (∃ k, w.own k = some true ∧ thread k ≠ t) ∨
      ∃ guards : Finset κ, guards.card = Mutex.countMax ∧
        ∀ k ∈ guards, w.own k = some true ∧ thread k = t

theorem Inv.safe (h : Inv thread w guards) : Safe thread w where
  exclusive k k' hk hk' := h.held.exclusive ((h.mem_iff k).mpr hk) ((h.mem_iff k').mpr hk')
  release k hk := (h.release (o := none) hk (by simp)).1
  free t ms hnone := by
    have hfree : w.mutex.owner = none := by
      by_contra howner
      obtain ⟨u, howner⟩ := Option.ne_none_iff_exists'.mp howner
      obtain ⟨k, hk, _⟩ := h.held.exists_guard howner
      exact hnone k ((h.mem_iff k).mp hk)
    unfold Mutex.request Mutex.lock
    rw [hfree]
    split <;> exact ⟨_, rfl⟩
  waits t ms hwait := by
    obtain ⟨hms, hother⟩ := Mutex.request_eq_none.mp hwait
    exact ⟨hms, h.exists_other hother⟩
  refused t ms m hrefused := by
    cases Mutex.request_cases h.count_eq_zero hrefused with
    | refused hwhy =>
      obtain hother | ⟨howner, hmax⟩ := hwhy
      . exact .inl (h.exists_other hother)
      . right
        refine ⟨guards, by rw [← h.held.depth_eq, hmax], ?_⟩
        intro k hk
        have hthread := (h.held.owner_of_mem k hk).symm.trans howner
        exact ⟨(h.mem_iff k).mp hk, Option.some.inj hthread⟩

theorem safe_of_runs {tr : List ((κ × Operation) × Bool)}
    (hruns : (machine thread).Runs Machine.always (init ι κ) tr w) :
    Safe thread w ∧ ∀ y ∈ tr, y.1.2 = .destroy → y.2 = true := by
  obtain ⟨guards, hinv⟩ := inv_runs hruns
  refine ⟨hinv.safe, ?_⟩
  apply hruns.forall_mem (I := fun w => ∃ guards, Inv thread w guards)
    (P := fun y => y.1.2 = .destroy → y.2 = true)
  . rintro w x w' b ⟨guards, h⟩ _ hstep
    exact inv_step h hstep
  . exact ⟨∅, inv_init⟩

theorem safe_of_runs_nested :
    ∃ tr w, (machine Prod.fst).Runs Machine.always (init Bool (Bool × Bool)) tr w ∧
      w.mutex.count = 2 ∧ ¬ w.own (true, false) = some true ∧ Safe Prod.fst w := by
  have hruns : (machine Prod.fst).Runs Machine.always (init Bool (Bool × Bool))
      [(((false, false), .construct (-1)), true), (((false, true), .construct 5), true),
        (((true, false), .construct 5), false)] _ :=
    .of_exec (fun _ _ _ => trivial) rfl
  exact ⟨_, _, hruns, rfl, by decide, (safe_of_runs hruns).1⟩

end Invariant

end World
end Lock
end IPC
