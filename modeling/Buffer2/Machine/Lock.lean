import Mathlib.Logic.Function.Basic

/-!
This module contains the lock as an invariant: the threads that are inside of the critical section are
told by where they are, and the thread that owns the lock is the only one of them.
-/

def Guarded {ι P : Type} (inside : P → Bool) (owner : Option ι) (pc : ι → P) : Prop :=
  ∀ t, inside (pc t) = true ↔ owner = some t

namespace Guarded

variable {ι P : Type} {inside : P → Bool} {owner : Option ι} {pc : ι → P} {t u : ι} {p : P}

theorem exclusive (h : Guarded inside owner pc) (ht : inside (pc t) = true) (hu : inside (pc u) = true) :
    t = u := by
  rw [h] at ht hu
  rw [ht] at hu
  exact Option.some.inj hu

theorem map {f : P → P} (h : Guarded inside owner pc) (hf : ∀ p, inside (f p) = inside p) :
    Guarded inside owner fun t => f (pc t) := by
  intro t
  rw [hf]
  apply h

variable [DecidableEq ι]

theorem move (h : Guarded inside owner pc) (hp : inside p = inside (pc t)) :
    Guarded inside owner (Function.update pc t p) := by
  intro u
  by_cases hut : u = t
  . subst hut
    rw [Function.update_self, hp]
    apply h
  . rw [Function.update_of_ne hut]
    apply h

theorem acquire (h : Guarded inside none pc) (hp : inside p = true) :
    Guarded inside (some t) (Function.update pc t p) := by
  intro u
  by_cases hut : u = t
  . subst hut
    simp [hp]
  . rw [Function.update_of_ne hut, h]
    simp [Ne.symm hut]

theorem release (h : Guarded inside owner pc) (ht : inside (pc t) = true) (hp : inside p = false) :
    Guarded inside none (Function.update pc t p) := by
  intro u
  by_cases hut : u = t
  . subst hut
    simp [hp]
  . rw [Function.update_of_ne hut]
    constructor
    . intro hu
      exact absurd (h.exclusive hu ht) hut
    . intro hnone
      cases hnone

end Guarded
