import Mathlib.Algebra.GroupWithZero.Nat
import Buffer2.Machine.Basic

/-!
This module contains amortized bounds on runs. A potential on the states pays for the steps: what a step
costs is covered by what the potential loses and by what the step earns.
-/

namespace Machine

variable {σ α ε : Type} {m : Machine σ α ε} {G : σ → α → Prop}

def total (cost : α × ε → Nat) (tr : List (α × ε)) : Nat := (tr.map cost).sum

@[simp]
theorem total_nil (cost : α × ε → Nat) : total cost [] = 0 := rfl

@[simp]
theorem total_cons (cost : α × ε → Nat) (x : α × ε) (tr : List (α × ε)) :
    total cost (x :: tr) = cost x + total cost tr := by
  simp [total]

theorem total_one (tr : List (α × ε)) : total (fun _ => 1) tr = tr.length := by
  simp [total]

theorem total_add (f g : α × ε → Nat) (tr : List (α × ε)) :
    total (fun x => f x + g x) tr = total f tr + total g tr := by
  induction tr with
  | nil => rfl
  | cons x tr ih =>
    simp only [total_cons, ih]
    omega

theorem total_ite (p : α × ε → Bool) (k : Nat) (tr : List (α × ε)) :
    total (fun x => if p x then k else 0) tr = k * tr.countP p := by
  induction tr with
  | nil => rfl
  | cons x tr ih =>
    rw [total_cons, ih, List.countP_cons, Nat.mul_add, Nat.add_comm]
    split <;> simp

/--
`I` is an invariant of the steps that `G` allows, and under it every one of them is covered.
-/
structure Amortized (m : Machine σ α ε) (G : σ → α → Prop) (I : σ → Prop) (potential : σ → Nat)
    (cost credit : α × ε → Nat) : Prop where
  invariant (s : σ) (a : α) (s' : σ) (e : ε) : I s → G s a → m.step s a = some (s', e) → I s'
  covered (s : σ) (a : α) (s' : σ) (e : ε) : I s → G s a → m.step s a = some (s', e) →
    cost (a, e) + potential s' ≤ potential s + credit (a, e)

variable {I : σ → Prop} {potential : σ → Nat} {cost credit : α × ε → Nat} {s s' : σ}
variable {tr : List (α × ε)}

theorem Amortized.runs (h : m.Amortized G I potential cost credit) (hruns : m.Runs G s tr s') (hs : I s) :
    total cost tr + potential s' ≤ potential s + total credit tr := by
  induction hruns with
  | nil => simp
  | @cons s s₁ _ a e _ hg hstep _ ih =>
    have hone := h.covered s a s₁ e hs hg hstep
    have hrest := ih (h.invariant s a s₁ e hs hg hstep)
    rw [total_cons, total_cons]
    omega

/--
The machine gets to a final state if every state that is not final has a step, and no step earns
anything.
-/
theorem Amortized.exists_final {final : σ → Prop}
    (h : m.Amortized G I potential (fun _ => 1) (fun _ => 0))
    (hstep : ∀ s, I s → ¬ final s → ∃ a s' e, G s a ∧ m.step s a = some (s', e)) (hs : I s) :
    ∃ tr s', m.Runs G s tr s' ∧ final s' := by
  induction hn : potential s using Nat.strongRecOn generalizing s with
  | _ n ih =>
    by_cases hfinal : final s
    . exact ⟨[], s, .nil s, hfinal⟩
    . obtain ⟨a, s₁, e, hg, hone⟩ := hstep s hs hfinal
      have hcovered := h.covered s a s₁ e hs hg hone
      have hs₁ := h.invariant s a s₁ e hs hg hone
      obtain ⟨tr, s', hruns, hs'⟩ := ih (potential s₁) (by omega) hs₁ rfl
      exact ⟨(a, e) :: tr, s', .cons hg hone hruns, hs'⟩

end Machine
