import Buffer2.Ipc.Resume

/-!
This module contains the converse: whenever a `Reset` takes the lock while a thread that has been notified
still requests it, this thread may go back to sleep.
-/

namespace IPC

open World

variable {ι : Type} [DecidableEq ι] {w w' : World ι} {t u : ι} {G : World ι → ι × Operation → Prop}
variable {tr : Trace ι}

theorem notified_runs (h : (machine ι).Runs G (.init ι) tr w) (hpc : w.pc t = .notified) :
    ∃ before a e after, tr = before ++ (a, e) :: after ∧ e.outcome = .notifiedAll ∧
      e.before.pc t = .asleep ∧ own t after = [] := by
  revert hpc
  apply h.history (I := fun tr w => w.pc t = .notified → ∃ before a e after,
    tr = before ++ (a, e) :: after ∧ e.outcome = .notifiedAll ∧ e.before.pc t = .asleep ∧
      own t after = [])
  . intro tr w a w' e ih _ hstep hpc
    obtain ⟨rfl, _, hstep⟩ := machine_cases hstep
    have hat : t ≠ a.1 := by
      rintro rfl
      exact hstep.pc_ne_notified hpc
    by_cases hasleep : e.before.pc t = .asleep
    . obtain hsame | ⟨hnotify, _⟩ := hstep.pc_of_ne hat
      . rw [hpc, hasleep] at hsame
        cases hsame
      . exact ⟨tr, a, e, [], rfl, hnotify, hasleep, rfl⟩
    . rw [hstep.pc_of_ne_asleep hat hasleep] at hpc
      obtain ⟨before, b, e', after, rfl, hnotify, hasleep, hafter⟩ := ih hpc
      refine ⟨before, b, e', after ++ [(a, e)], by simp, hnotify, hasleep, ?_⟩
      rw [own_append, hafter, own_singleton, if_neg (Ne.symm hat), List.append_nil]
  . intro hpc
    cases hpc

theorem resleeps (hu : w.pc u = .resetRequest) (ht : w.pc t = .notified) (howner : w.owner = none) :
    ∃ tail w', (machine ι).Runs Machine.always w tail w' ∧ own t tail = [.locked, .slept] := by
  have htu : t ≠ u := by
    rintro rfl
    rw [ht] at hu
    cases hu
  refine ⟨_, _, .cons trivial (machine_step (.locked (t := u) .resetStore (by rw [hu]; rfl) howner))
    (.cons trivial (machine_step (.resetStored (t := u) ?_))
    (.cons trivial (machine_step (.finished (t := u) (.inr ?_)))
    (.cons trivial (machine_step (.locked (t := t) .waitLoop ?_ rfl))
    (.single trivial (machine_step (.slept (t := t) ?_ rfl)))))), ?_⟩
  . simp [locked, goto]
  . simp [store, goto]
  . simp [locked, goto, store, release, htu, ht, Pc.request]
  . simp [locked, goto]
  . simp [own, Ne.symm htu]

theorem not_resumes_of_resleeps {tail : Trace ι} (h : own t tail = [.locked, .slept]) :
    ¬ Resumes t tail := by
  intro hresumes
  have hsteps := hresumes.steps
  rw [h] at hsteps
  simp at hsteps

/--
A thread that has been notified is made to sleep again by the next steps of `u` and its own.
-/
theorem not_sound_of_overtaken (h : (machine ι).Runs G (.init ι) tr w)
    (hu : ((machine ι).step w (u, .go)).isSome = true) (hprompt : ¬ Prompt w (u, .go)) :
    ∃ tail w', (machine ι).Runs Machine.always w tail w' ∧ ¬ Sound (tr ++ tail) := by
  simp only [Prompt, forall_const, Classical.not_imp, not_forall, not_not] at hprompt
  obtain ⟨hreset, t, ht⟩ := hprompt
  have howner : w.owner = none := by
    obtain ⟨⟨v, e⟩, hstep⟩ := Option.isSome_iff_exists.mp hu
    obtain ⟨_, _, hstep⟩ := machine_cases hstep
    generalize e.outcome = o at hstep
    cases hstep with
    | locked p _ howner => exact howner
    | _ => simp_all
  obtain ⟨tail, w', htail, hown⟩ := resleeps hreset ht howner
  refine ⟨tail, w', htail, ?_⟩
  obtain ⟨before, a, e, after, rfl, hnotify, hasleep, hafter⟩ := notified_runs h ht
  intro hsound
  refine not_resumes_of_resleeps ?_ (hsound.resumed before (after ++ tail) a e t (by simp) hnotify hasleep)
  rw [own_append, hafter, hown, List.nil_append]

def EveryThreadResumes (ι : Type) [DecidableEq ι] : Prop :=
  ∀ (tr : Trace ι) (w : World ι), (machine ι).Runs Machine.always (.init ι) tr w → Sound tr

/--
Thread 0 falls asleep in `Wait`, and thread 1 calls `Set` and then `Reset` before thread 0 gets the lock.
-/
def overtaking : List (Nat × Operation) :=
  [(0, .wait), (0, .go), (0, .go), (0, .go), (1, .set), (1, .go), (1, .go), (1, .go), (1, .go), (1, .go),
    (1, .reset), (1, .go), (1, .go), (1, .go), (0, .go), (0, .go)]

theorem runs_overtaking : ∃ before e after w, (machine Nat).Runs Machine.always (.init Nat)
    (before ++ ((1, .go), e) :: after) w ∧ e.outcome = .notifiedAll ∧ e.before.pc 0 = .asleep ∧
      own 0 after = [.locked, .slept] := by
  have hruns := Machine.Runs.of_acts (m := machine Nat) (s := .init Nat) (G := Machine.always)
    (fun a (_ : a ∈ overtaking) _ => trivial) rfl
  exact ⟨[_, _, _, _, _, _, _, _], _, _, _, hruns, rfl, rfl, rfl⟩

theorem not_everyThreadResumes : ¬ EveryThreadResumes Nat := by
  intro h
  obtain ⟨before, e, after, w, hruns, hnotify, hasleep, hafter⟩ := runs_overtaking
  exact not_resumes_of_resleeps hafter ((h _ w hruns).resumed before after _ e 0 rfl hnotify hasleep)

end IPC
