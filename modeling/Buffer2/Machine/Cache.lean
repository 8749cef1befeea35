import Buffer2.Machine.Basic
import Mathlib.Order.Monotone.Basic

/-!
This module contains a cache in front of a source that is sampled again and again. A read samples the
source if the cache has been invalidated, and answers with the cached sample otherwise.
-/

structure Cache (V : Type) where
  value : V
  valid : Bool
  samples : Nat

namespace Cache

variable {V : Type}

inductive Access
  | invalidate
  | read
  deriving DecidableEq, Repr

/--
A read hits with the cached value, or takes the sample `k` of the source.
-/
inductive Answer (V : Type)
  | invalidated
  | hit (v : V)
  | sampled (k : Nat) (v : V)
  deriving DecidableEq

def Answer.value? (a : Answer V) : Option V :=
  match a with
  | .invalidated => none
  | .hit v => some v
  | .sampled _ v => some v

def machine (source : Nat → V) : Machine (Cache V) Access (Answer V) where
  step c a :=
    match a with
    | .invalidate => some ({ c with valid := false }, .invalidated)
    | .read =>
      if c.valid then
        some (c, .hit c.value)
      else
        let v := source c.samples
        some ({ value := v, valid := true, samples := c.samples + 1 }, .sampled c.samples v)

abbrev Trace (V : Type) := List (Access × Answer V)

/--
Every value that is read is a sample taken after the last invalidation, all values read between two
invalidations are the same, and the values never decrease.
-/
structure Accurate [LE V] (source : Nat → V) (tr : Trace V) : Prop where
  measured (before after : Trace V) (x : Access × Answer V) (v : V) :
    tr = before ++ x :: after → x.2.value? = some v →
    ∃ earlier since k, before = earlier ++ since ∧ (∀ y ∈ since, y.1 ≠ .invalidate) ∧
      (.read, .sampled k v) ∈ since ++ [x] ∧ v = source k
  same (before during after : Trace V) (x y : Access × Answer V) (v w : V) :
    tr = before ++ x :: during ++ y :: after → (∀ z ∈ during, z.1 ≠ .invalidate) →
    x.2.value? = some v → y.2.value? = some w → v = w
  monotone (before during after : Trace V) (x y : Access × Answer V) (v w : V) :
    tr = before ++ x :: during ++ y :: after → x.2.value? = some v → y.2.value? = some w → v ≤ w

variable {source : Nat → V} {c c' : Cache V} {a : Access} {e : Answer V} {tr : Trace V}
variable {G : Cache V → Access → Prop}

inductive Step (source : Nat → V) (c : Cache V) : Access → Answer V → Cache V → Prop
  | invalidate : Step source c .invalidate .invalidated { c with valid := false }
  | hit (hvalid : c.valid = true) : Step source c .read (.hit c.value) c
  | sampled (hvalid : c.valid = false) :
    Step source c .read (.sampled c.samples (source c.samples))
      { value := source c.samples, valid := true, samples := c.samples + 1 }

theorem step_cases (h : (machine source).step c a = some (c', e)) : Step source c a e c' := by
  cases a with
  | invalidate =>
    cases h
    exact .invalidate
  | read =>
    simp only [machine] at h
    split at h
    . next hvalid =>
      cases h
      exact .hit hvalid
    . next hvalid =>
      cases h
      exact .sampled (Bool.of_not_eq_true hvalid)

/--
What a cache that has been invalid at first knows after the accesses `tr`.
-/
structure Inv [LE V] (source : Nat → V) (tr : Trace V) (c : Cache V) : Prop where
  valid : c.valid = true → ∃ earlier since, ∃ k < c.samples, tr = earlier ++ since ∧
    (∀ y ∈ since, y.1 ≠ .invalidate) ∧ (.read, .sampled k c.value) ∈ since ∧ c.value = source k
  recent (before since : Trace V) (x : Access × Answer V) (v : V) : tr = before ++ x :: since →
    (∀ y ∈ since, y.1 ≠ .invalidate) → x.2.value? = some v → c.valid = true ∧ c.value = v
  bound (x : Access × Answer V) (v : V) : x ∈ tr → x.2.value? = some v →
    ∃ k < c.samples, c.value = source k ∧ v ≤ c.value

theorem inv_init [LE V] (hinvalid : c.valid = false) : Inv source [] c where
  valid hvalid := by simp [hinvalid] at hvalid
  recent before since x v heq := by simp at heq
  bound x v hx := by cases hx

theorem snoc_cases {β : Type} {xs before since : List β} {x y : β} (h : xs ++ [y] = before ++ x :: since) :
    (since = [] ∧ xs = before ∧ x = y) ∨ ∃ since', since = since' ++ [y] ∧ xs = before ++ x :: since' := by
  obtain rfl | ⟨since', z, rfl⟩ := since.eq_nil_or_concat'
  . left
    obtain ⟨hxs, hyx⟩ := List.append_inj' h rfl
    cases hyx
    exact ⟨rfl, hxs, rfl⟩
  . right
    rw [← List.cons_append, ← List.append_assoc] at h
    obtain ⟨hxs, hyz⟩ := List.append_inj' h rfl
    cases hyz
    exact ⟨since', rfl, hxs⟩

section Accurate

variable [Preorder V]

theorem Inv.of_step (h : Inv source tr c) (hsource : Monotone source) (hstep : Step source c a e c') :
    Inv source (tr ++ [(a, e)]) c' := by
  cases hstep with
  | invalidate =>
    constructor
    . intro hvalid
      cases hvalid
    . intro before since x v heq hsince hv
      obtain ⟨_, _, rfl⟩ | ⟨since', rfl, _⟩ := snoc_cases heq
      . cases hv
      . exact absurd rfl (hsince (.invalidate, .invalidated) (by simp))
    . intro x v hx hv
      obtain hx | hx := List.mem_append.mp hx
      . exact h.bound x v hx hv
      . rw [List.mem_singleton.mp hx] at hv
        cases hv
  | hit hvalid =>
    obtain ⟨earlier, recent, k, hk, heq, hrecent, hmem, hvalue⟩ := h.valid hvalid
    constructor
    . intro _
      refine ⟨earlier, recent ++ [(.read, .hit c.value)], k, hk, ?_, ?_, ?_, hvalue⟩
      . rw [heq, List.append_assoc]
      . intro y hy
        obtain hy | hy := List.mem_append.mp hy
        . exact hrecent y hy
        . rw [List.mem_singleton.mp hy]
          nofun
      . exact List.mem_append_left _ hmem
    . intro before since x v heq hsince hv
      obtain ⟨_, _, rfl⟩ | ⟨since', rfl, htr⟩ := snoc_cases heq
      . cases hv
        exact ⟨hvalid, rfl⟩
      . exact h.recent before since' x v htr (fun y hy => hsince y (List.mem_append_left _ hy)) hv
    . intro x v hx hv
      obtain hx | hx := List.mem_append.mp hx
      . exact h.bound x v hx hv
      . rw [List.mem_singleton.mp hx] at hv
        cases hv
        exact ⟨k, hk, hvalue, le_refl _⟩
  | sampled hvalid =>
    constructor
    . intro _
      exact ⟨tr, [_], c.samples, Nat.lt_succ_self _, rfl, by simp, by simp, rfl⟩
    . intro before since x v heq hsince hv
      obtain ⟨_, _, rfl⟩ | ⟨since', rfl, htr⟩ := snoc_cases heq
      . cases hv
        exact ⟨rfl, rfl⟩
      . have hnot := (h.recent before since' x v htr (fun y hy => hsince y (List.mem_append_left _ hy)) hv).1
        rw [hvalid] at hnot
        cases hnot
    . intro x v hx hv
      refine ⟨c.samples, Nat.lt_succ_self _, rfl, ?_⟩
      obtain hx | hx := List.mem_append.mp hx
      . obtain ⟨k, hk, hvalue, hle⟩ := h.bound x v hx hv
        rw [hvalue] at hle
        exact hle.trans (hsource (Nat.le_of_lt hk))
      . rw [List.mem_singleton.mp hx] at hv
        cases hv
        exact le_refl _

theorem inv_runs (h : (machine source).Runs G c tr c') (hsource : Monotone source)
    (hinvalid : c.valid = false) : Inv source tr c' := by
  apply h.history (I := Inv source) _ (inv_init hinvalid)
  intro tr c a c' e hinv _ hstep
  exact hinv.of_step hsource (step_cases hstep)

theorem inv_split {before after : Trace V} {x : Access × Answer V}
    (h : (machine source).Runs G c (before ++ x :: after) c') (hsource : Monotone source)
    (hinvalid : c.valid = false) :
    ∃ c₁ c₂, Inv source before c₁ ∧ Step source c₁ x.1 x.2 c₂ := by
  obtain ⟨c₁, hbefore, hafter⟩ := h.split
  cases hafter with
  | cons _ hstep _ => exact ⟨c₁, _, inv_runs hbefore hsource hinvalid, step_cases hstep⟩

theorem accurate_of_invalid (h : (machine source).Runs G c tr c') (hsource : Monotone source)
    (hinvalid : c.valid = false) : Accurate source tr := by
  constructor
  . rintro before after ⟨a, e⟩ v rfl hv
    obtain ⟨c₁, c₂, hinv, hstep⟩ := inv_split h hsource hinvalid
    cases hstep with
    | invalidate => cases hv
    | hit hvalid =>
      cases hv
      obtain ⟨earlier, since, k, _, heq, hsince, hmem, hvalue⟩ := hinv.valid hvalid
      exact ⟨earlier, since, k, heq, hsince, List.mem_append_left _ hmem, hvalue⟩
    | sampled hvalid =>
      cases hv
      exact ⟨before, [], c₁.samples, by simp, by simp, by simp, rfl⟩
  . rintro before during after x ⟨a, e⟩ v w rfl hduring hv hw
    obtain ⟨c₁, c₂, hinv, hstep⟩ := inv_split h hsource hinvalid
    obtain ⟨hvalid, hvalue⟩ := hinv.recent before during x v rfl hduring hv
    cases hstep with
    | invalidate => cases hw
    | hit =>
      cases hw
      exact hvalue.symm
    | sampled hnot =>
      rw [hvalid] at hnot
      cases hnot
  . rintro before during after x ⟨a, e⟩ v w rfl hv hw
    obtain ⟨c₁, c₂, hinv, hstep⟩ := inv_split h hsource hinvalid
    obtain ⟨k, hk, hvalue, hle⟩ := hinv.bound x v (by simp) hv
    cases hstep with
    | invalidate => cases hw
    | hit =>
      cases hw
      exact hle
    | sampled =>
      cases hw
      rw [hvalue] at hle
      exact hle.trans (hsource (Nat.le_of_lt hk))

theorem Accurate.cons {x : Access × Answer V} (h : Accurate source tr) (hx : x.2.value? = none) :
    Accurate source (x :: tr) := by
  constructor
  . intro before after y v heq hv
    cases before with
    | nil =>
      cases heq
      rw [hx] at hv
      cases hv
    | cons z before =>
      cases heq
      obtain ⟨earlier, since, k, rfl, hsince⟩ := h.measured before after y v rfl hv
      exact ⟨x :: earlier, since, k, rfl, hsince⟩
  . intro before during after y z v w heq hduring hv hw
    cases before with
    | nil =>
      cases heq
      rw [hx] at hv
      cases hv
    | cons _ before =>
      cases heq
      exact h.same before during after y z v w rfl hduring hv hw
  . intro before during after y z v w heq hv hw
    cases before with
    | nil =>
      cases heq
      rw [hx] at hv
      cases hv
    | cons _ before =>
      cases heq
      exact h.monotone before during after y z v w rfl hv hw

/--
A cache that claims to be valid before it has taken a sample has to be invalidated first.
-/
theorem accurate_iff (h : (machine source).Runs G c tr c') (hsource : Monotone source)
    (hvalid : c.valid = true) : Accurate source tr ↔ ∀ x ∈ tr.head?, x.1 = .invalidate := by
  cases h with
  | nil =>
    constructor
    . simp
    . intro _
      constructor <;> simp
  | @cons _ c₁ _ a e tr _ hstep hrest =>
    cases step_cases hstep with
    | invalidate =>
      constructor
      . simp
      . intro _
        exact (accurate_of_invalid hrest hsource rfl).cons rfl
    | hit =>
      constructor
      . intro haccurate
        obtain ⟨earlier, since, k, heq, _, hmem, _⟩ := haccurate.measured [] tr _ _ rfl rfl
        obtain ⟨rfl, rfl⟩ := List.append_eq_nil_iff.mp heq.symm
        simp at hmem
      . simp
    | sampled hnot =>
      rw [hvalid] at hnot
      cases hnot

end Accurate
end Cache
