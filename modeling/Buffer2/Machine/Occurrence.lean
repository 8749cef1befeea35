import Buffer2.Machine.Basic

/-!
This module contains the rules for what has happened in a run, and for states that record it.
-/

namespace Machine

variable {σ α ε β : Type} {m : Machine σ α ε} {G : σ → α → Prop} {P : σ → α → Prop}
variable {s s' s'' : σ} {a : α} {e : ε} {tr : List (α × ε)}

/--
One of the steps `tr` that are made from `s` has been made in a state, and by an action, with `P`.
-/
def Occurs (m : Machine σ α ε) (P : σ → α → Prop) (s : σ) (tr : List (α × ε)) : Prop :=
  match tr with
  | [] => False
  | (a, _) :: tr => P s a ∨ ∃ s' e, m.step s a = some (s', e) ∧ m.Occurs P s' tr

theorem occurs_cons (hstep : m.step s a = some (s', e)) :
    m.Occurs P s ((a, e) :: tr) ↔ P s a ∨ m.Occurs P s' tr := by
  simp [Occurs, hstep]

theorem occurs_or {Q : σ → α → Prop} :
    m.Occurs (fun s a => P s a ∨ Q s a) s tr ↔ m.Occurs P s tr ∨ m.Occurs Q s tr := by
  induction tr generalizing s with
  | nil => simp [Occurs]
  | cons x tr ih =>
    simp only [Occurs, ih]
    grind

theorem occurs_exists {P : β → σ → α → Prop} :
    m.Occurs (fun s a => ∃ v, P v s a) s tr ↔ ∃ v, m.Occurs (P v) s tr := by
  induction tr generalizing s with
  | nil => simp [Occurs]
  | cons x tr ih =>
    simp only [Occurs, ih]
    grind

theorem Runs.occurs_snoc (h : m.Runs G s tr s') :
    m.Occurs P s (tr ++ [(a, e)]) ↔ m.Occurs P s tr ∨ P s' a := by
  induction h with
  | nil => simp [Occurs]
  | cons _ hstep _ ih => rw [List.cons_append, occurs_cons hstep, occurs_cons hstep, ih, or_assoc]

theorem Runs.not_occurs_iff (h : m.Runs G s tr s') :
    ¬ m.Occurs P s tr ↔ m.Runs (fun s a => G s a ∧ ¬ P s a) s tr s' := by
  induction h with
  | nil => simp [Occurs, Runs.nil]
  | @cons s _ _ a e _ hg hstep _ ih =>
    rw [occurs_cons hstep, not_or, ih]
    constructor
    . rintro ⟨hP, hrest⟩
      exact .cons ⟨hg, hP⟩ hstep hrest
    . intro hruns
      cases hruns with
      | cons hguard hstep' hrest =>
        rw [hstep, Option.some.injEq, Prod.mk.injEq] at hstep'
        rw [hstep'.1]
        exact ⟨hguard.2, hrest⟩

/--
`record` keeps the one event that there may be: nothing else changes it, and no second one follows.
-/
structure Records (m : Machine σ α ε) (G : σ → α → Prop) (I : σ → Prop) (record : σ → Option β)
    (event : σ → α → Option β) : Prop where
  invariant (s : σ) (a : α) (s' : σ) (e : ε) : I s → G s a → m.step s a = some (s', e) → I s'
  quiet (s : σ) (a : α) (s' : σ) (e : ε) : I s → G s a → m.step s a = some (s', e) →
    event s a = none → record s' = record s
  first (s : σ) (a : α) (s' : σ) (e : ε) (v : β) : I s → G s a → m.step s a = some (s', e) →
    event s a = some v → record s = none ∧ record s' = some v

theorem Records.runs {I : σ → Prop} {record : σ → Option β} {event : σ → α → Option β}
    (h : m.Records G I record event) (hruns : m.Runs G s tr s') (hs : I s) (hnone : record s = none)
    (v : β) : record s' = some v ↔ m.Occurs (fun s a => event s a = some v) s tr := by
  have hboth : I s' ∧ m.Runs G s tr s' ∧
      (record s' = some v ↔ m.Occurs (fun s a => event s a = some v) s tr) := by
    apply hruns.history (I := fun tr s' => I s' ∧ m.Runs G s tr s' ∧
      (record s' = some v ↔ m.Occurs (fun s a => event s a = some v) s tr))
    . rintro tr s₁ a s₂ e ⟨hs₁, hpast, ih⟩ hg hstep
      refine ⟨h.invariant _ _ _ _ hs₁ hg hstep, hpast.snoc hg hstep, ?_⟩
      rw [hpast.occurs_snoc, ← ih]
      cases hevent : event s₁ a with
      | none => simp [h.quiet _ _ _ _ hs₁ hg hstep hevent]
      | some u =>
        obtain ⟨hbefore, hafter⟩ := h.first _ _ _ _ u hs₁ hg hstep hevent
        simp [hbefore, hafter]
    . refine ⟨hs, .nil s, ?_⟩
      simp [Occurs, hnone]
  exact hboth.2.2

end Machine
