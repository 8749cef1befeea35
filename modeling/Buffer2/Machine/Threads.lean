import Buffer2.Machine.Composition
import Buffer2.Machine.Section

/-!
This module contains two programs, each in a thread of its own, that share a machine with critical sections.
-/

/--
A program that is inside of a section: the action that it has called, and how it goes on with the result.
-/
inductive Inside (α ε κ π ρ : Type)
  | left (a : α) (resume : ε → π) (k : κ)
  | right (a : α) (resume : ε → ρ) (k : κ)

def Inside.point {α ε κ π ρ : Type} (k : Inside α ε κ π ρ) : κ :=
  match k with
  | .left _ _ k => k
  | .right _ _ k => k

def Inside.moveTo {α ε κ π ρ : Type} (k : Inside α ε κ π ρ) (point : κ) : Inside α ε κ π ρ :=
  match k with
  | .left a resume _ => .left a resume point
  | .right a resume _ => .right a resume point

@[simp]
theorem Inside.point_moveTo {α ε κ π ρ : Type} (k : Inside α ε κ π ρ) (point : κ) :
    (k.moveTo point).point = point := by
  cases k <;> rfl

namespace Sections

variable {σ α ε κ ι ν π ρ χ ψ : Type}

def compose (S : Sections σ α ε κ ι) (view : σ → ν) (P : Program ν α ε π χ) (Q : Program ν α ε ρ ψ)
    (left right : ι) : Sections (Composed σ π ρ) (χ ⊕ ψ) (Option (α × ε)) (Inside α ε κ π ρ) ι where
  thread x :=
    match x with
    | .inl _ => left
    | .inr _ => right
  start s x :=
    match x with
    | .inl x =>
      match P.move (view s.shared) s.left x with
      | some (.call a resume) => (S.start s.shared a).map (.left a resume)
      | _ => none
    | .inr x =>
      match Q.move (view s.shared) s.right x with
      | some (.call a resume) => (S.start s.shared a).map (.right a resume)
      | _ => none
  stmt k s :=
    match k with
    | .left a resume k =>
      match S.stmt k s.shared with
      | (shared, .inl k) => ({ s with shared }, .inl (.left a resume k))
      | (shared, .inr e) => ({ s with shared, left := resume e }, .inr (some (a, e)))
    | .right a resume k =>
      match S.stmt k s.shared with
      | (shared, .inl k) => ({ s with shared }, .inl (.right a resume k))
      | (shared, .inr e) => ({ s with shared, right := resume e }, .inr (some (a, e)))
  threadOf k := S.threadOf k.point

/--
The program calls actions of its own thread only, and whether it does so does not depend on its view.
-/
structure Runs (S : Sections σ α ε κ ι) (t : ι) (P : Program ν α ε π χ) : Prop where
  thread (v : ν) (p : π) (x : χ) (a : α) (resume : ε → π) :
    P.move v p x = some (.call a resume) → S.thread a = t
  blind (v v' : ν) (p : π) (x : χ) (a : α) (resume : ε → π) :
    P.move v p x = some (.call a resume) → P.move v' p x = some (.call a resume)

section Compose

variable {S : Sections σ α ε κ ι} {m : Machine σ α ε} {view : σ → ν} {P : Program ν α ε π χ}
variable {Q : Program ν α ε ρ ψ} {left right : ι} {s s' : Composed σ π ρ} {k : Inside α ε κ π ρ}
variable {x : χ} {y : ψ} {z : χ ⊕ ψ} {a : α} {e : Option (α × ε)}

theorem start_inl (h : (S.compose view P Q left right).start s (.inl x) = some k) :
    ∃ a resume k₀, P.move (view s.shared) s.left x = some (.call a resume) ∧ S.start s.shared a = some k₀ ∧
      k = .left a resume k₀ := by
  simp only [compose] at h
  split at h
  next a resume hmove =>
    obtain ⟨k₀, hstart, rfl⟩ := Option.map_eq_some_iff.mp h
    exact ⟨a, resume, k₀, hmove, hstart, rfl⟩
  . cases h

theorem start_inr (h : (S.compose view P Q left right).start s (.inr y) = some k) :
    ∃ a resume k₀, Q.move (view s.shared) s.right y = some (.call a resume) ∧ S.start s.shared a = some k₀ ∧
      k = .right a resume k₀ := by
  simp only [compose] at h
  split at h
  next a resume hmove =>
    obtain ⟨k₀, hstart, rfl⟩ := Option.map_eq_some_iff.mp h
    exact ⟨a, resume, k₀, hmove, hstart, rfl⟩
  . cases h

theorem exec_left {n : Nat} {k : κ} {r : σ × ε} {resume : ε → π} (h : S.exec n k s.shared = some r) :
    (S.compose view P Q left right).exec n (.left a resume k) s =
      some ({ s with shared := r.1, left := resume r.2 }, some (a, r.2)) := by
  induction n generalizing k s with
  | zero => cases h
  | succ n ih =>
    simp only [exec] at h
    split at h
    next shared k' hstmt =>
      simp only [exec, compose, hstmt]
      exact ih (s := { s with shared }) h
    next shared e hstmt =>
      cases h
      simp only [exec, compose, hstmt]

theorem exec_right {n : Nat} {k : κ} {r : σ × ε} {resume : ε → ρ} (h : S.exec n k s.shared = some r) :
    (S.compose view P Q left right).exec n (.right a resume k) s =
      some ({ s with shared := r.1, right := resume r.2 }, some (a, r.2)) := by
  induction n generalizing k s with
  | zero => cases h
  | succ n ih =>
    simp only [exec] at h
    split at h
    next shared k' hstmt =>
      simp only [exec, compose, hstmt]
      exact ih (s := { s with shared }) h
    next shared e hstmt =>
      cases h
      simp only [exec, compose, hstmt]

end Compose

section Programs

variable {S : Sections σ α ε κ ι} {m : Machine σ α ε} {view : σ → ν} {P : Program ν α ε π χ} {t : ι}
variable {s s' u u' : σ} {p p' : π} {x : χ} {l : Option (α × ε)} {k k' : κ}

/--
The section that a program is about to enter.
-/
def startOf (S : Sections σ α ε κ ι) (view : σ → ν) (P : Program ν α ε π χ) (s : σ) (p : π) (x : χ) :
    Option κ :=
  match P.move (view s) p x with
  | some (.call a _) => S.start s a
  | _ => none

theorem programStep_left (hatomic : S.Atomic m) (hruns : S.Runs t P) (hthread : S.threadOf k ≠ t)
    (hview : view u = view s) (hstmt : S.stmt k s = (u, .inl k')) (hfree : S.startOf view P u p x = none)
    (hstep : m.programStep view P u p x = some ((u', p'), l)) :
    ∃ s', S.startOf view P s p x = none ∧ m.programStep view P s p x = some ((s', p'), l) ∧
      S.stmt k s' = (u', .inl k') := by
  cases Machine.programStep_cases hstep with
  | own hmove =>
    rw [hview] at hmove
    exact ⟨s, by simp [startOf, hmove], by simp [Machine.programStep, hmove], hstmt⟩
  | @call _ a e resume hmove hone =>
    have hstart : S.start u a = none := by simpa [startOf, hmove] using hfree
    have hother : S.threadOf k ≠ S.thread a := by rwa [hruns.thread _ _ _ _ _ hmove]
    obtain ⟨s', hstart', hone', hstmt'⟩ := hatomic.stmt_left _ _ _ _ _ _ _ hother hstmt hstart hone
    rw [hview] at hmove
    exact ⟨s', by simp [startOf, hmove, hstart'], by simp [Machine.programStep, hmove, hone'], hstmt'⟩

/--
A step of another program that needs no lock does not keep a thread from its section.
-/
theorem start_of_programStep {a : α} (hatomic : S.Atomic m) (hruns : S.Runs t P) (hthread : S.thread a ≠ t)
    (hfree : S.startOf view P s p x = none) (hstep : m.programStep view P s p x = some ((s', p'), l))
    (hstart : S.start s a = some k) : S.start s' a = some k := by
  cases Machine.programStep_cases hstep with
  | own => exact hstart
  | @call _ b e resume hmove hone =>
    have hnone : S.start s b = none := by simpa [startOf, hmove] using hfree
    have hother : S.thread a ≠ S.thread b := by rwa [hruns.thread _ _ _ _ _ hmove]
    exact hatomic.start_left _ _ _ _ _ _ hother hnone hone hstart

end Programs

section Compose

variable {S : Sections σ α ε κ ι} {m : Machine σ α ε} {view : σ → ν} {P : Program ν α ε π χ}
variable {Q : Program ν α ε ρ ψ} {left right : ι} {s : Composed σ π ρ} {x : χ} {y : ψ}

theorem start_inl_eq_none :
    (S.compose view P Q left right).start s (.inl x) = none ↔ S.startOf view P s.shared s.left x = none := by
  simp only [compose, startOf]
  split <;> simp

theorem start_inr_eq_none :
    (S.compose view P Q left right).start s (.inr y) = none ↔ S.startOf view Q s.shared s.right y = none := by
  simp only [compose, startOf]
  split <;> simp

theorem stmt_inl_iff {k k' : Inside α ε κ π ρ} {t : Composed σ π ρ} :
    (S.compose view P Q left right).stmt k s = (t, .inl k') ↔
      ∃ k₁, S.stmt k.point s.shared = (t.shared, .inl k₁) ∧ t = { s with shared := t.shared } ∧
        k' = k.moveTo k₁ := by
  constructor
  . intro hstmt
    cases k <;>
    . simp only [Sections.compose] at hstmt
      split at hstmt
      next shared k₁ hone =>
        cases hstmt
        exact ⟨k₁, hone, rfl, rfl⟩
      . cases hstmt
  . rintro ⟨k₁, hone, ht, rfl⟩
    rw [ht]
    cases k <;>
    . simp only [Inside.point] at hone
      simp only [Sections.compose, hone]
      rfl

theorem Atomic.compose (hatomic : S.Atomic m)
    (hview : ∀ k k' s s', S.stmt k s = (s', .inl k') → view s' = view s)
    (hleft : S.Runs left P) (hright : S.Runs right Q) (hne : left ≠ right) :
    (S.compose view P Q left right).Atomic (m.compose view P Q) where
  exec s z k hstart := by
    cases z with
    | inl x =>
      obtain ⟨a, resume, k₀, hmove, hcall, rfl⟩ := start_inl hstart
      obtain ⟨n, r, hexec, hone⟩ := hatomic.exec _ _ _ hcall
      refine ⟨n, _, exec_left hexec, ?_⟩
      simp [Machine.compose, Machine.programStep, hmove, hone]
    | inr y =>
      obtain ⟨a, resume, k₀, hmove, hcall, rfl⟩ := start_inr hstart
      obtain ⟨n, r, hexec, hone⟩ := hatomic.exec _ _ _ hcall
      refine ⟨n, _, exec_right hexec, ?_⟩
      simp [Machine.compose, Machine.programStep, hmove, hone]
  threadOf_start s z k hstart := by
    cases z with
    | inl x =>
      obtain ⟨a, resume, k₀, hmove, hcall, rfl⟩ := start_inl hstart
      exact (hatomic.threadOf_start _ _ _ hcall).trans (hleft.thread _ _ _ _ _ hmove)
    | inr y =>
      obtain ⟨a, resume, k₀, hmove, hcall, rfl⟩ := start_inr hstart
      exact (hatomic.threadOf_start _ _ _ hcall).trans (hright.thread _ _ _ _ _ hmove)
  threadOf_stmt k k' s s' hstmt := by
    obtain ⟨k₁, hone, -, rfl⟩ := stmt_inl_iff.mp hstmt
    show S.threadOf (k.moveTo k₁).point = S.threadOf k.point
    rw [Inside.point_moveTo]
    exact hatomic.threadOf_stmt _ _ _ _ hone
  start_left s s' z z' e k hthread hfree hstep hstart := by
    cases z with
    | inl x =>
      cases z' with
      | inl => exact absurd rfl hthread
      | inr y =>
        obtain ⟨a, resume, k₀, hmove, hcall, rfl⟩ := start_inl hstart
        obtain ⟨⟨⟨shared, q⟩, l⟩, hprogram, heq⟩ := Option.map_eq_some_iff.mp hstep
        cases heq
        have hother : S.thread a ≠ right := by rwa [hleft.thread _ _ _ _ _ hmove]
        have hcall' := start_of_programStep hatomic hright hother (start_inr_eq_none.mp hfree) hprogram hcall
        simp [Sections.compose, hleft.blind _ _ _ _ _ _ hmove, hcall']
    | inr y =>
      cases z' with
      | inl x =>
        obtain ⟨a, resume, k₀, hmove, hcall, rfl⟩ := start_inr hstart
        obtain ⟨⟨⟨shared, p⟩, l⟩, hprogram, heq⟩ := Option.map_eq_some_iff.mp hstep
        cases heq
        have hother : S.thread a ≠ left := by rw [hright.thread _ _ _ _ _ hmove]; exact hne.symm
        have hcall' := start_of_programStep hatomic hleft hother (start_inl_eq_none.mp hfree) hprogram hcall
        simp [Sections.compose, hright.blind _ _ _ _ _ _ hmove, hcall']
      | inr => exact absurd rfl hthread
  stmt_left k k' s t t' z e hthread hstmt hfree hstep := by
    obtain ⟨k₁, hone, ht, rfl⟩ := stmt_inl_iff.mp hstmt
    have hsame := hview _ _ _ _ hone
    cases z with
    | inl x =>
      obtain ⟨⟨⟨shared, p⟩, l⟩, hprogram, heq⟩ := Option.map_eq_some_iff.mp hstep
      cases heq
      rw [ht] at hprogram
      rw [start_inl_eq_none, ht] at hfree
      obtain ⟨u, hfree', hprogram', hone'⟩ := programStep_left hatomic hleft hthread hsame hone hfree hprogram
      refine ⟨{ s with shared := u, left := p }, start_inl_eq_none.mpr hfree', ?_, ?_⟩
      . simp [Machine.compose, hprogram']
      . rw [stmt_inl_iff, ht]
        exact ⟨k₁, hone', rfl, rfl⟩
    | inr y =>
      obtain ⟨⟨⟨shared, q⟩, l⟩, hprogram, heq⟩ := Option.map_eq_some_iff.mp hstep
      cases heq
      rw [ht] at hprogram
      rw [start_inr_eq_none, ht] at hfree
      obtain ⟨u, hfree', hprogram', hone'⟩ :=
        programStep_left hatomic hright hthread hsame hone hfree hprogram
      refine ⟨{ s with shared := u, right := q }, start_inr_eq_none.mpr hfree', ?_, ?_⟩
      . simp [Machine.compose, hprogram']
      . rw [stmt_inl_iff, ht]
        exact ⟨k₁, hone', rfl, rfl⟩

end Compose
end Sections
