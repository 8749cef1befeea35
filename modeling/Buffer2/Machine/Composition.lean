import Buffer2.Machine.Refinement

/-!
This module contains two programs that run side by side and share a machine. A program sees a part of
the shared state, the view, makes its own choices, and calls the actions of the machine one at a time.
-/

inductive Move (α ε π : Type)
  | own (next : π)
  | call (a : α) (resume : ε → π)

def Move.rename {α ε π : Type} (g : α → α) (move : Move α ε π) : Move α ε π :=
  match move with
  | .own next => .own next
  | .call a resume => .call (g a) resume

/--
A program with the states `π`. The choices `χ` stand for everything that it does not determine itself.
-/
structure Program (ν α ε π χ : Type) where
  move : ν → π → χ → Option (Move α ε π)

structure Composed (σ π ρ : Type) where
  shared : σ
  left : π
  right : ρ

namespace Machine

variable {σ α ε ν π ρ χ ψ : Type}

def programStep (m : Machine σ α ε) (view : σ → ν) (P : Program ν α ε π χ) (s : σ) (p : π) (x : χ) :
    Option ((σ × π) × Option (α × ε)) :=
  match P.move (view s) p x with
  | none => none
  | some (.own p') => some ((s, p'), none)
  | some (.call a resume) => (m.step s a).map fun (s', e) => ((s', resume e), some (a, e))

def compose (m : Machine σ α ε) (view : σ → ν) (P : Program ν α ε π χ) (Q : Program ν α ε ρ ψ) :
    Machine (Composed σ π ρ) (χ ⊕ ψ) (Option (α × ε)) where
  step s x :=
    match x with
    | .inl x =>
      (m.programStep view P s.shared s.left x).map fun ((shared, left), e) =>
        ({ s with shared, left }, e)
    | .inr x =>
      (m.programStep view Q s.shared s.right x).map fun ((shared, right), e) =>
        ({ s with shared, right }, e)

variable {m : Machine σ α ε} {view : σ → ν} {P : Program ν α ε π χ} {Q : Program ν α ε ρ ψ}

inductive ProgramStep (m : Machine σ α ε) (view : σ → ν) (P : Program ν α ε π χ) (s : σ) (p : π)
    (x : χ) : σ → π → Option (α × ε) → Prop
  | own {p' : π} (hmove : P.move (view s) p x = some (.own p')) : ProgramStep m view P s p x s p' none
  | call {s' : σ} {a : α} {e : ε} {resume : ε → π}
      (hmove : P.move (view s) p x = some (.call a resume)) (hstep : m.step s a = some (s', e)) :
      ProgramStep m view P s p x s' (resume e) (some (a, e))

theorem programStep_cases {s s' : σ} {p p' : π} {x : χ} {l : Option (α × ε)}
    (h : m.programStep view P s p x = some ((s', p'), l)) : ProgramStep m view P s p x s' p' l := by
  unfold programStep at h
  split at h
  . cases h
  . next hmove =>
    cases h
    exact .own hmove
  . next hmove =>
    simp only [Option.map_eq_some_iff, Prod.exists, Prod.mk.injEq] at h
    obtain ⟨_, _, hstep, ⟨rfl, rfl⟩, rfl⟩ := h
    exact .call hmove hstep

theorem ProgramStep.exists_move {s s' : σ} {p p' : π} {x : χ} {a : α} {e : ε}
    (h : ProgramStep m view P s p x s' p' (some (a, e))) :
    ∃ resume, P.move (view s) p x = some (.call a resume) := by
  cases h with
  | call hmove => exact ⟨_, hmove⟩

theorem compose_inl {s s' : Composed σ π ρ} {x : χ} {l : Option (α × ε)}
    (h : (m.compose view P Q).step s (.inl x) = some (s', l)) :
    ProgramStep m view P s.shared s.left x s'.shared s'.left l ∧ s'.right = s.right := by
  simp only [compose, Option.map_eq_some_iff, Prod.exists, Prod.mk.injEq] at h
  obtain ⟨_, _, _, hstep, rfl, rfl⟩ := h
  exact ⟨programStep_cases hstep, rfl⟩

theorem compose_inr {s s' : Composed σ π ρ} {x : ψ} {l : Option (α × ε)}
    (h : (m.compose view P Q).step s (.inr x) = some (s', l)) :
    ProgramStep m view Q s.shared s.right x s'.shared s'.right l ∧ s'.left = s.left := by
  simp only [compose, Option.map_eq_some_iff, Prod.exists, Prod.mk.injEq] at h
  obtain ⟨_, _, _, hstep, rfl, rfl⟩ := h
  exact ⟨programStep_cases hstep, rfl⟩

theorem isSome_compose_inl {s : Composed σ π ρ} {x : χ}
    (h : (m.programStep view P s.shared s.left x).isSome = true) :
    ((m.compose view P Q).step s (.inl x)).isSome = true := by
  simp [compose, h]

theorem isSome_compose_inr {s : Composed σ π ρ} {x : ψ}
    (h : (m.programStep view Q s.shared s.right x).isSome = true) :
    ((m.compose view P Q).step s (.inr x)).isSome = true := by
  simp [compose, h]

def calls (tr : List ((χ ⊕ ψ) × Option (α × ε))) : List (α × ε) := tr.filterMap Prod.snd

theorem calls_append (tr : List ((χ ⊕ ψ) × Option (α × ε))) (x : χ ⊕ ψ) (l : Option (α × ε)) :
    calls (tr ++ [(x, l)]) = calls tr ++ l.toList := by
  cases l <;> simp [calls]

def Performs (m : Machine σ α ε) (s : σ) (l : Option (α × ε)) (s' : σ) : Prop :=
  match l with
  | none => s' = s
  | some (a, e) => m.step s a = some (s', e)

theorem ProgramStep.performs {s s' : σ} {p p' : π} {x : χ} {l : Option (α × ε)}
    (h : ProgramStep m view P s p x s' p' l) : m.Performs s l s' := by
  cases h with
  | own => rfl
  | call _ hstep => exact hstep

theorem compose_performs {s s' : Composed σ π ρ} {x : χ ⊕ ψ} {l : Option (α × ε)}
    (h : (m.compose view P Q).step s x = some (s', l)) : m.Performs s.shared l s'.shared := by
  cases x with
  | inl x => exact (compose_inl h).1.performs
  | inr x => exact (compose_inr h).1.performs

theorem Runs.calls {G : Composed σ π ρ → χ ⊕ ψ → Prop} {s s' : Composed σ π ρ}
    {tr : List ((χ ⊕ ψ) × Option (α × ε))} (h : (m.compose view P Q).Runs G s tr s') :
    m.Runs always s.shared (calls tr) s'.shared := by
  apply h.refine (I := fun _ => True)
  . exact fun _ _ _ _ _ _ _ => trivial
  . intro s x s' l _ _ hstep
    have hperforms := compose_performs hstep
    cases l with
    | none => exact hperforms
    | some y => exact ⟨trivial, hperforms⟩
  . trivial

section Rename

variable {P' : Program ν α ε π χ} {Q' : Program ν α ε ρ ψ} {f : σ → σ} {g : α → α}

theorem programStep_rename {s : σ} {p : π} {x : χ} (hview : view (f s) = view s)
    (hmove : P'.move (view s) p x = (P.move (view s) p x).map (Move.rename g))
    (hstep : ∀ a, m.step (f s) (g a) = (m.step s a).map (Prod.map f id)) :
    m.programStep view P' (f s) p x =
      (m.programStep view P s p x).map (Prod.map (Prod.map f id) (Option.map (Prod.map g id))) := by
  unfold programStep
  rw [hview, hmove]
  cases P.move (view s) p x with
  | none => rfl
  | some move =>
    cases move with
    | own p' => rfl
    | call a resume =>
      simp only [Option.map_some, Move.rename, hstep, Option.map_map]
      rfl

/--
If the machine does not tell the states `s` and `f s` apart, and the programs differ only in the names
that `g` changes, neither does what is composed of them.
-/
theorem compose_rename {s : Composed σ π ρ} {x : χ ⊕ ψ} (hview : view (f s.shared) = view s.shared)
    (hleft : ∀ x, P'.move (view s.shared) s.left x =
      (P.move (view s.shared) s.left x).map (Move.rename g))
    (hright : ∀ x, Q'.move (view s.shared) s.right x =
      (Q.move (view s.shared) s.right x).map (Move.rename g))
    (hstep : ∀ a, m.step (f s.shared) (g a) = (m.step s.shared a).map (Prod.map f id)) :
    (m.compose view P' Q').step { s with shared := f s.shared } x =
      ((m.compose view P Q).step s x).map
        (Prod.map (fun s => { s with shared := f s.shared }) (Option.map (Prod.map g id))) := by
  cases x with
  | inl x =>
    simp only [compose, programStep_rename hview (hleft x) hstep, Option.map_map]
    rfl
  | inr x =>
    simp only [compose, programStep_rename hview (hright x) hstep, Option.map_map]
    rfl

end Rename

end Machine
