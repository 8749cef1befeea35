import Buffer2.Machine.Basic

/-!
This module contains the rules that relate the runs of two machines, and the runs of one machine with
and without the steps that leave its state alone.
-/

namespace Machine

variable {σ α ε σ' α' ε' : Type} {m : Machine σ α ε} {m' : Machine σ' α' ε'}
variable {G : σ → α → Prop} {G' : σ' → α' → Prop}

/--
One step of `m`, seen through the abstraction `abs`: a step `label` has a name for is that step of
`m'`, any other one leaves the abstract state alone.
-/
def Simulates (m' : Machine σ' α' ε') (G' : σ' → α' → Prop) (abs : σ → σ')
    (label : α × ε → Option (α' × ε')) (s : σ) (x : α × ε) (s' : σ) : Prop :=
  match label x with
  | none => abs s' = abs s
  | some y => G' (abs s) y.1 ∧ m'.step (abs s) y.1 = some (abs s', y.2)

theorem Runs.refine {I : σ → Prop} {abs : σ → σ'} {label : α × ε → Option (α' × ε')}
    {s s' : σ} {tr : List (α × ε)}
    (hI : ∀ s a s' e, I s → G s a → m.step s a = some (s', e) → I s')
    (hsim : ∀ s a s' e, I s → G s a → m.step s a = some (s', e) →
      Simulates m' G' abs label s (a, e) s')
    (h : m.Runs G s tr s') (hs : I s) : m'.Runs G' (abs s) (tr.filterMap label) (abs s') := by
  induction h with
  | nil => exact .nil _
  | cons hg hstep _ ih =>
    have hrest := ih (hI _ _ _ _ hs hg hstep)
    have hone := hsim _ _ _ _ hs hg hstep
    unfold Simulates at hone
    split at hone
    . next hlabel =>
      rw [List.filterMap_cons_none hlabel, ← hone]
      exact hrest
    . next y hlabel =>
      rw [List.filterMap_cons_some hlabel]
      exact .cons hone.1 hone.2 hrest

theorem Runs.rename {I : σ → Prop} (f : σ → σ') (g : α × ε → α' × ε') {s s' : σ} {tr : List (α × ε)}
    (hI : ∀ s a s' e, I s → G s a → m.step s a = some (s', e) → I s')
    (hG : ∀ s a e, I s → G s a → G' (f s) (g (a, e)).1)
    (hstep : ∀ s a s' e, I s → G s a → m.step s a = some (s', e) →
      m'.step (f s) (g (a, e)).1 = some (f s', (g (a, e)).2))
    (h : m.Runs G s tr s') (hs : I s) : m'.Runs G' (f s) (tr.map g) (f s') := by
  induction h with
  | nil => exact .nil _
  | cons hg hone _ ih =>
    rw [List.map_cons]
    exact .cons (hG _ _ _ hs hg) (hstep _ _ _ _ hs hg hone) (ih (hI _ _ _ _ hs hg hone))

theorem Runs.simulate {I : σ → Prop} (abs : σ → σ') {s s' : σ} {tr : List (α × ε)}
    (hsim : ∀ s a s' e, I s → G s a → m.step s a = some (s', e) →
      I s' ∧ (abs s' = abs s ∨
        ∃ a' e', G' (abs s) a' ∧ m'.step (abs s) a' = some (abs s', e')))
    (h : m.Runs G s tr s') (hs : I s) : ∃ tr', m'.Runs G' (abs s) tr' (abs s') := by
  induction h with
  | nil => exact ⟨[], .nil _⟩
  | cons hg hstep _ ih =>
    obtain ⟨hs', hone⟩ := hsim _ _ _ _ hs hg hstep
    obtain ⟨tr', hrest⟩ := ih hs'
    cases hone with
    | inl heq =>
      rw [← heq]
      exact ⟨tr', hrest⟩
    | inr hone =>
      obtain ⟨a', e', hg', hstep'⟩ := hone
      exact ⟨(a', e') :: tr', .cons hg' hstep' hrest⟩

theorem Runs.filter {p : α × ε → Bool} {s s' : σ} {tr : List (α × ε)}
    (hidle : ∀ s a s' e, m.step s a = some (s', e) → p (a, e) = false → s' = s)
    (h : m.Runs G s tr s') : m.Runs G s (tr.filter p) s' := by
  induction h with
  | nil => exact .nil _
  | @cons s _ _ a e _ hg hstep _ ih =>
    cases hp : p (a, e) with
    | true =>
      rw [List.filter_cons_of_pos hp]
      exact .cons hg hstep ih
    | false =>
      rw [List.filter_cons_of_neg (by simp [hp]), ← hidle _ _ _ _ hstep hp]
      exact ih

end Machine
