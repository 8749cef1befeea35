import Buffer2.Fifo.Content

/-!
This module contains the account of the grants: until a request returns the next range, what a thread
commits comes out of the range it has.
-/

namespace World

variable {c : Layout}

theorem written_cons (x : Operation × Event) (tr : List (Operation × Event)) :
    written (x :: tr) = written [x] ++ written tr :=
  written_append [x] tr

theorem taken_cons (x : Operation × Event) (tr : List (Operation × Event)) :
    taken (x :: tr) = taken [x] ++ taken tr :=
  taken_append [x] tr

def GrantsWrite (x : Operation × Event) : Prop := ∃ data n, x = (.passWrite, .granted data n)

def GrantsRead (x : Operation × Event) : Prop := ∃ data n, x = (.passRead, .granted data n)

section Step

variable {w w' : World c} {a : Operation} {e : Event}

theorem written_le_of_step (hgrant : ¬ GrantsWrite (a, e)) (hstep : Step w a e w') :
    (written [(a, e)]).length + w'.fifo.wrReq ≤ w.fifo.wrReq := by
  cases hstep with
  | writeGranted => exact absurd ⟨_, _, rfl⟩ hgrant
  | commitWrite len hfree hlen => simpa [written] using hlen
  | _ => simp [written]

theorem taken_le_of_step (hgrant : ¬ GrantsRead (a, e)) (hstep : Step w a e w') :
    (taken [(a, e)]).length + w'.fifo.rdReq ≤ w.fifo.rdReq := by
  cases hstep with
  | readGranted => exact absurd ⟨_, _, rfl⟩ hgrant
  | commitRead len hfree hlen => simpa [taken] using hlen
  | _ => simp [taken]

end Step

section Runs

variable {G : World c → Operation → Prop} {w w' : World c} {tr : List (Operation × Event)}

theorem written_le_of_runs (hinv : w.Inv) (hruns : (machine c).Runs G w tr w')
    (hgrant : ∀ x ∈ tr, ¬ GrantsWrite x) :
    (written tr).length + w'.fifo.wrReq ≤ w.fifo.wrReq := by
  induction hruns with
  | nil => simp [written]
  | cons _ hstep _ ih =>
    simp only [List.mem_cons, forall_eq_or_imp] at hgrant
    have hone := written_le_of_step hgrant.1 (step_cases hinv hstep)
    have hrest := ih (hinv.step hstep) hgrant.2
    rw [written_cons, List.length_append]
    omega

theorem taken_le_of_runs (hinv : w.Inv) (hruns : (machine c).Runs G w tr w')
    (hgrant : ∀ x ∈ tr, ¬ GrantsRead x) : (taken tr).length + w'.fifo.rdReq ≤ w.fifo.rdReq := by
  induction hruns with
  | nil => simp [taken]
  | cons _ hstep _ ih =>
    simp only [List.mem_cons, forall_eq_or_imp] at hgrant
    have hone := taken_le_of_step hgrant.1 (step_cases hinv hstep)
    have hrest := ih (hinv.step hstep) hgrant.2
    rw [taken_cons, List.length_append]
    omega

end Runs

end World
