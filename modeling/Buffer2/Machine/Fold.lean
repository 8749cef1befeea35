import Mathlib.Data.List.Basic

/-!
This module contains computations that may fail and folds over them. If only some of the elements
write to a part of the state, the last one of them decides what is in it at the end.
-/

namespace Fold

variable {σ α β ε : Type}

theorem exists_of_map_ok {x : Except ε α} {f : α → β} {b : β} (h : x.map f = .ok b) :
    ∃ a, x = .ok a ∧ f a = b := by
  cases x with
  | error e => cases h
  | ok a =>
    cases h
    exact ⟨a, rfl, rfl⟩

theorem exists_of_bind_ok {x : Except ε α} {f : α → Except ε β} {b : β}
    (h : x >>= f = .ok b) : ∃ a, x = .ok a ∧ f a = .ok b := by
  cases x with
  | error e => cases h
  | ok a => exact ⟨a, rfl, h⟩

theorem exists_of_any {x : Except ε α} {p : α → Bool} (h : x.toOption.any p = true) :
    ∃ a, x = .ok a ∧ p a = true := by
  cases x with
  | error e => cases h
  | ok a => exact ⟨a, rfl, h⟩

section FailsOnly

variable {P : ε → Prop}

def FailsOnly (P : ε → Prop) (x : Except ε α) : Prop := ∀ e, x = .error e → P e

theorem FailsOnly.ok (a : α) : FailsOnly P (.ok a : Except ε α) := by
  intro e h
  cases h

theorem FailsOnly.map {x : Except ε α} (h : FailsOnly P x) (f : α → β) : FailsOnly P (x.map f) := by
  intro e hx
  cases x with
  | error e' =>
    cases hx
    exact h _ rfl
  | ok a => cases hx

theorem FailsOnly.bind {x : Except ε α} {f : α → Except ε β} (h : FailsOnly P x)
    (hf : ∀ a, FailsOnly P (f a)) : FailsOnly P (x >>= f) := by
  intro e hx
  cases x with
  | error e' =>
    cases hx
    exact h _ rfl
  | ok a => exact hf a e hx

theorem FailsOnly.mono {Q : ε → Prop} {x : Except ε α} (h : FailsOnly P x) (hPQ : ∀ e, P e → Q e) :
    FailsOnly Q x := by
  intro e hx
  apply hPQ
  exact h e hx

end FailsOnly

def lastOf (p : α → Bool) (xs : List α) : Option α := (xs.filter p).getLast?

@[simp]
theorem lastOf_nil (p : α → Bool) : lastOf p [] = none := rfl

theorem lastOf_cons (p : α → Bool) (x : α) (xs : List α) :
    lastOf p (x :: xs) = (lastOf p xs).or (if p x then some x else none) := by
  unfold lastOf
  rw [List.filter_cons]
  split
  . rw [List.getLast?_cons]
    cases (xs.filter p).getLast? <;> rfl
  . rw [Option.or_none]

theorem lastOf_append_cons {p : α → Bool} {x y : α} {xs ys : List α} (hy : y ∈ ys) (hp : p y = true) :
    lastOf p (xs ++ x :: ys) = lastOf p (xs ++ ys) := by
  have hne : ys.filter p ≠ [] := by
    apply List.ne_nil_of_mem
    exact List.mem_filter.mpr ⟨hy, hp⟩
  unfold lastOf
  rw [List.filter_append, List.filter_append, List.filter_cons]
  split
  . rw [List.getLast?_append, List.getLast?_append]
    rw [List.getLast?_cons, List.getLast?_eq_some_getLast hne]
    rfl
  . rfl

theorem mem_of_lastOf {p : α → Bool} {x : α} {xs : List α} (h : lastOf p xs = some x) :
    x ∈ xs ∧ p x = true := by
  have hmem := List.mem_of_getLast? h
  exact List.mem_filter.mp hmem

theorem not_of_lastOf_none {p : α → Bool} {xs : List α} (h : lastOf p xs = none) :
    ∀ x ∈ xs, ¬ p x = true := by
  unfold lastOf at h
  rw [List.getLast?_eq_none_iff, List.filter_eq_nil_iff] at h
  exact h

/--
What the last of the elements with `p` computes, or `b` if there is none.
-/
def decided (p : α → Bool) (f : α → Except ε β) (b : β) (xs : List α) : Except ε β :=
  match lastOf p xs with
  | none => .ok b
  | some x => f x

theorem decided_congr {p : α → Bool} {xs ys : List α} (h : xs.filter p = ys.filter p)
    (f : α → Except ε β) (b : β) : decided p f b xs = decided p f b ys := by
  unfold decided lastOf
  rw [h]

theorem decided_append_cons {p : α → Bool} {x : α} {xs ys : List α}
    (h : p x = true → ∃ y ∈ ys, p y = true) (f : α → Except ε β) (b : β) :
    decided p f b (xs ++ x :: ys) = decided p f b (xs ++ ys) := by
  by_cases hx : p x = true
  . obtain ⟨y, hy, hp⟩ := h hx
    unfold decided
    rw [lastOf_append_cons hy hp]
  . apply decided_congr
    simp [hx]

section Steps

variable {step : σ → α → Except ε σ} {s s' : σ} {x : α} {xs : List α}

theorem foldlM_cons_ok :
    (x :: xs).foldlM step s = .ok s' ↔ ∃ t, step s x = .ok t ∧ xs.foldlM step t = .ok s' := by
  rw [List.foldlM_cons]
  cases hstep : step s x with
  | error e =>
    constructor
    . intro h
      cases h
    . rintro ⟨t, ht, _⟩
      cases ht
  | ok t =>
    constructor
    . intro h
      exact ⟨t, rfl, h⟩
    . rintro ⟨u, hu, h⟩
      cases hu
      exact h

theorem foldlM_error_iff {e : ε} :
    xs.foldlM step s = .error e ↔
      ∃ ys y zs t, xs = ys ++ y :: zs ∧ ys.foldlM step s = .ok t ∧ step t y = .error e := by
  constructor
  . intro h
    induction xs generalizing s with
    | nil => cases h
    | cons x xs ih =>
      rw [List.foldlM_cons] at h
      cases hstep : step s x with
      | error e' =>
        rw [hstep] at h
        cases h
        exact ⟨[], x, xs, s, rfl, rfl, hstep⟩
      | ok t =>
        rw [hstep] at h
        obtain ⟨ys, y, zs, u, rfl, hys, hy⟩ := ih h
        exact ⟨x :: ys, y, zs, u, rfl, foldlM_cons_ok.mpr ⟨t, hstep, hys⟩, hy⟩
  . rintro ⟨ys, y, zs, t, rfl, hys, hy⟩
    rw [List.foldlM_append, hys]
    simp only [bind, Except.bind]
    rw [List.foldlM_cons, hy]
    rfl

variable (part : σ → β) {p : α → Bool} {f : α → Except ε β}

theorem foldlM_part (hskip : ∀ s x s', step s x = .ok s' → p x = false → part s' = part s)
    (hwrite : ∀ s x s', step s x = .ok s' → p x = true → f x = .ok (part s'))
    (h : xs.foldlM step s = .ok s') : decided p f (part s) xs = .ok (part s') := by
  unfold decided
  induction xs generalizing s with
  | nil =>
    cases h
    rfl
  | cons y xs ih =>
    obtain ⟨t, hstep, hrest⟩ := foldlM_cons_ok.mp h
    specialize ih hrest
    rw [lastOf_cons]
    cases hlast : lastOf p xs with
    | some z =>
      rw [hlast] at ih
      exact ih
    | none =>
      rw [hlast] at ih
      simp only [Except.ok.injEq] at ih
      rw [Option.none_or]
      cases hy : p y with
      | true =>
        rw [← ih]
        exact hwrite _ _ _ hstep hy
      | false =>
        rw [← ih, hskip _ _ _ hstep hy]
        rfl

end Steps

end Fold
