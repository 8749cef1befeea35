import Mathlib.Data.List.Basic

/-!
This module contains labelled machines that answer every step with an observable event, and the
induction rules for their runs.
-/

structure Machine (σ α ε : Type) where
  step : σ → α → Option (σ × ε)

namespace Machine

variable {σ α ε : Type} {m : Machine σ α ε} {G : σ → α → Prop}

/--
`m.Runs G s tr s'` holds if `m` gets from `s` to `s'` by the steps `tr`, each of which the guard `G`
allows in the state it is made in. The trace `tr` pairs every action with the event that answered it.
-/
inductive Runs (m : Machine σ α ε) (G : σ → α → Prop) : σ → List (α × ε) → σ → Prop
  | nil (s : σ) : Runs m G s [] s
  | cons {s s' s'' : σ} {a : α} {e : ε} {tr : List (α × ε)} (hg : G s a)
      (hstep : m.step s a = some (s', e)) (hrest : Runs m G s' tr s'') :
      Runs m G s ((a, e) :: tr) s''

def always : σ → α → Prop := fun _ _ => True

def exec (m : Machine σ α ε) (s : σ) (acts : List α) : Option (List (α × ε) × σ) :=
  match acts with
  | [] => some ([], s)
  | a :: acts =>
    match m.step s a with
    | none => none
    | some (s', e) => (m.exec s' acts).map fun (tr, s'') => ((a, e) :: tr, s'')

/--
The machine that makes the steps that the guard allows, and no others.
-/
def guarded (m : Machine σ α ε) (G : σ → α → Prop) [∀ s a, Decidable (G s a)] : Machine σ α ε where
  step s a := if G s a then m.step s a else none

namespace Runs

variable {s s' s'' : σ} {a : α} {e : ε} {tr tr' : List (α × ε)}

theorem single (hg : G s a) (hstep : m.step s a = some (s', e)) : m.Runs G s [(a, e)] s' :=
  .cons hg hstep (.nil s')

theorem append (h : m.Runs G s tr s') (h' : m.Runs G s' tr' s'') : m.Runs G s (tr ++ tr') s'' := by
  induction h with
  | nil => exact h'
  | cons hg hstep _ ih => exact .cons hg hstep (ih h')

theorem snoc (h : m.Runs G s tr s') (hg : G s' a) (hstep : m.step s' a = some (s'', e)) :
    m.Runs G s (tr ++ [(a, e)]) s'' :=
  h.append (single hg hstep)

theorem split (h : m.Runs G s (tr ++ tr') s'') : ∃ s', m.Runs G s tr s' ∧ m.Runs G s' tr' s'' := by
  induction tr generalizing s with
  | nil => exact ⟨s, .nil s, h⟩
  | cons x tr ih =>
    cases h with
    | cons hg hstep hrest =>
      obtain ⟨s', htr, htr'⟩ := ih hrest
      exact ⟨s', .cons hg hstep htr, htr'⟩

theorem mono {G' : σ → α → Prop} (hG : ∀ s a, G s a → G' s a) (h : m.Runs G s tr s') :
    m.Runs G' s tr s' := by
  induction h with
  | nil => exact .nil _
  | cons hg hstep _ ih => exact .cons (hG _ _ hg) hstep ih

theorem and_of_forall {P : α → Prop} (h : m.Runs G s tr s') (hP : ∀ x ∈ tr, P x.1) :
    m.Runs (fun s a => G s a ∧ P a) s tr s' := by
  induction h with
  | nil => exact .nil _
  | cons hg hstep _ ih =>
    simp only [List.mem_cons, forall_eq_or_imp] at hP
    exact .cons ⟨hg, hP.1⟩ hstep (ih hP.2)

theorem exec_eq (h : m.Runs G s tr s') : m.exec s (tr.map Prod.fst) = some (tr, s') := by
  induction h with
  | nil => simp [exec]
  | cons _ hstep _ ih => simp [exec, hstep, ih]

theorem of_acts {acts : List α} (hG : ∀ a ∈ acts, ∀ s, G s a) (h : m.exec s acts = some (tr, s')) :
    m.Runs G s tr s' := by
  induction acts generalizing s tr with
  | nil =>
    cases h
    apply Runs.nil
  | cons a acts ih =>
    simp only [List.mem_cons, forall_eq_or_imp] at hG
    simp only [exec] at h
    split at h
    . contradiction
    . next hstep =>
      simp only [Option.map_eq_some_iff, Prod.exists, Prod.mk.injEq] at h
      obtain ⟨_, _, hrest, rfl, rfl⟩ := h
      apply Runs.cons
      . apply hG.1
      . exact hstep
      . apply ih hG.2
        exact hrest

theorem exists_of_acts (acts : List α) {P : List (α × ε) → σ → Prop} [∀ tr s', Decidable (P tr s')]
    (hG : ∀ a ∈ acts, ∀ s, G s a) (h : (m.exec s acts).any (fun x => decide (P x.1 x.2)) = true) :
    ∃ tr s', m.Runs G s tr s' ∧ P tr s' := by
  obtain ⟨⟨tr, s'⟩, hexec, hP⟩ := (Option.any_eq_true _ _).mp h
  exact ⟨tr, s', .of_acts hG hexec, of_decide_eq_true hP⟩

theorem of_exec (hG : ∀ x ∈ tr, ∀ s, G s x.1) (h : m.exec s (tr.map Prod.fst) = some (tr, s')) :
    m.Runs G s tr s' := by
  apply of_acts _ h
  simpa using hG

theorem of_guarded [∀ s a, Decidable (G s a)] (h : (m.guarded G).Runs always s tr s') : m.Runs G s tr s' := by
  induction h with
  | nil => exact .nil _
  | cons _ hstep _ ih =>
    simp only [guarded] at hstep
    split at hstep
    . next hg => exact .cons hg hstep ih
    . contradiction

theorem deterministic (h : m.Runs G s tr s') (h' : m.Runs G s tr' s'')
    (hacts : tr.map Prod.fst = tr'.map Prod.fst) : tr = tr' ∧ s' = s'' := by
  have hexec := h.exec_eq
  rw [hacts, h'.exec_eq] at hexec
  simp only [Option.some.injEq, Prod.mk.injEq] at hexec
  constructor
  . exact hexec.1.symm
  . exact hexec.2.symm

theorem invariant {I : σ → Prop}
    (hI : ∀ s a s' e, I s → G s a → m.step s a = some (s', e) → I s')
    (h : m.Runs G s tr s') (hs : I s) : I s' := by
  induction h with
  | nil => exact hs
  | cons hg hstep _ ih => exact ih (hI _ _ _ _ hs hg hstep)

theorem history {I : List (α × ε) → σ → Prop}
    (hI : ∀ tr s a s' e, I tr s → G s a → m.step s a = some (s', e) → I (tr ++ [(a, e)]) s')
    (h : m.Runs G s tr s') (hs : I [] s) : I tr s' := by
  -- `past` is what has been done before the steps that are left.
  suffices ∀ past, I past s → I (past ++ tr) s' by simpa using this [] hs
  intro past hpast
  clear hs
  induction h generalizing past with
  | nil => simpa using hpast
  | cons hg hstep _ ih =>
    rw [List.append_cons]
    exact ih _ (hI _ _ _ _ _ hpast hg hstep)

theorem forall_mem {I : σ → Prop} {P : α × ε → Prop}
    (hI : ∀ s a s' e, I s → G s a → m.step s a = some (s', e) → I s' ∧ P (a, e))
    (h : m.Runs G s tr s') (hs : I s) : ∀ x ∈ tr, P x := by
  induction h with
  | nil => simp
  | cons hg hstep _ ih =>
    obtain ⟨hs', hP⟩ := hI _ _ _ _ hs hg hstep
    simp only [List.mem_cons, forall_eq_or_imp]
    exact ⟨hP, ih hs'⟩

end Runs
end Machine
