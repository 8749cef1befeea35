import Buffer2.Fifo.Grants

/-!
This module contains the proof that misuse is harmless: a call that throws has tested everything before
it changed anything, and a commit can only use up what the last request returned.
-/

namespace World

variable {c : Layout}

def succeeded (x : Operation × Event) : Bool :=
  match x.2 with
  | .threw _ => false
  | _ => true

def returnedLength (e : Event) : Option Nat :=
  match e with
  | .granted _ n => some n
  | .ended => some 0
  | _ => none

section Step

variable {w w' : World c} {a : Operation} {e : Event}

theorem eq_of_threw {err : LogicError} (hstep : w.step a = some (w', .threw err)) : w' = w := by
  cases a with
  | requestWrite len =>
    simp only [step, Option.ite_none_right_eq_some, Option.some.injEq] at hstep
    obtain ⟨_, hstep⟩ := hstep
    unfold World.requestWrite at hstep
    split at hstep <;> simp_all
  | commitWrite data len =>
    simp only [step, Option.ite_none_right_eq_some, Option.some.injEq] at hstep
    obtain ⟨_, hstep⟩ := hstep
    unfold World.commitWrite at hstep
    split at hstep <;> simp_all
  | requestRead len =>
    simp only [step, Option.ite_none_right_eq_some, Option.some.injEq] at hstep
    obtain ⟨_, hstep⟩ := hstep
    unfold World.requestRead at hstep
    split at hstep <;> simp_all
  | commitRead data len =>
    simp only [step, Option.ite_none_right_eq_some, Option.some.injEq] at hstep
    obtain ⟨_, hstep⟩ := hstep
    unfold World.commitRead at hstep
    split at hstep <;> simp_all
  | passWrite =>
    simp only [step, Option.map_eq_some_iff] at hstep
    obtain ⟨len, _, hstep⟩ := hstep
    unfold World.passWrite at hstep
    split at hstep <;> simp at hstep
  | passRead =>
    simp only [step, Option.map_eq_some_iff] at hstep
    obtain ⟨len, _, hstep⟩ := hstep
    unfold World.passRead at hstep
    split at hstep <;> simp at hstep
  | wakeWrite | wakeRead =>
    simp only [step] at hstep
    split at hstep <;> simp at hstep
  | failWrite | failRead => simp [step] at hstep
  | store | endWrite | endRead => simp [step, World.endWrite, World.endRead] at hstep

theorem eq_of_not_succeeded (hstep : w.step a = some (w', e)) (h : succeeded (a, e) = false) :
    w' = w := by
  cases e with
  | threw err => exact eq_of_threw hstep
  | _ => cases h

theorem wrReq_of_returned {n : Nat} (hinv : w.Inv) (hcall : a = .passWrite ∨ a = .failWrite)
    (hstep : w.step a = some (w', e)) (hn : returnedLength e = some n) : w'.fifo.wrReq = n := by
  cases step_cases hinv hstep with
  | writeEnded len hready =>
    cases hn
    exact hinv.drain.of_ready hready
  | writeGranted =>
    cases hn
    rfl
  | failWrite len hwaiting =>
    cases hn
    exact hinv.drain.of_waiting hwaiting
  | writeSlept => cases hn
  | _ => simp at hcall

theorem rdReq_of_returned {n : Nat} (hinv : w.Inv) (hcall : a = .passRead ∨ a = .failRead)
    (hstep : w.step a = some (w', e)) (hn : returnedLength e = some n) : w'.fifo.rdReq = n := by
  cases step_cases hinv hstep with
  | readEnded len hready =>
    cases hn
    exact hinv.source.of_ready hready
  | readGranted =>
    cases hn
    rfl
  | failRead len hwaiting =>
    cases hn
    exact hinv.source.of_waiting hwaiting
  | readSlept => cases hn
  | _ => simp at hcall

end Step

theorem misuse_harmless {tr : List (Operation × Event)} {w : World c}
    (hruns : (machine c).Runs Machine.always (init c) tr w) :
    (machine c).Runs Machine.always (init c) (tr.filter succeeded) w ∧
      (∀ tr' w', (machine c).Runs Machine.always (init c) tr' w' →
        tr'.map Prod.fst = (tr.filter succeeded).map Prod.fst → tr' = tr.filter succeeded ∧ w' = w) ∧
      (∀ a w₁ e n tr' w₂, a = .passWrite ∨ a = .failWrite → w.step a = some (w₁, e) →
        returnedLength e = some n → (machine c).Runs Machine.always w₁ tr' w₂ →
        (∀ x ∈ tr', ¬ GrantsWrite x) → (written tr').length ≤ n) ∧
      (∀ a w₁ e n tr' w₂, a = .passRead ∨ a = .failRead → w.step a = some (w₁, e) →
        returnedLength e = some n → (machine c).Runs Machine.always w₁ tr' w₂ →
        (∀ x ∈ tr', ¬ GrantsRead x) → (taken tr').length ≤ n) := by
  have hinv := (inv_init c).runs hruns
  have hfilter := hruns.filter (p := succeeded) fun _ _ _ _ hstep h => eq_of_not_succeeded hstep h
  refine ⟨hfilter, ?_, ?_, ?_⟩
  . intro tr' w' hruns' hacts
    exact hruns'.deterministic hfilter hacts
  . intro a w₁ e n tr' w₂ hcall hstep hn hruns' hgrant
    have hreq := wrReq_of_returned hinv hcall hstep hn
    have hle := written_le_of_runs (hinv.step hstep) hruns' hgrant
    omega
  . intro a w₁ e n tr' w₂ hcall hstep hn hruns' hgrant
    have hreq := rdReq_of_returned hinv hcall hstep hn
    have hle := taken_le_of_runs (hinv.step hstep) hruns' hgrant
    omega

theorem misuse_harmless_oneByte :
    ∃ w, (machine .oneByte).Runs Machine.always (init .oneByte)
        [(.requestWrite 1, .entered), (.passWrite, .granted 4096 1),
          (.commitWrite 4097 1, .threw .notRequested), (.requestWrite 1, .threw .requestOutstanding),
          (.commitWrite 4096 1, .wrote [0])] w ∧
      (machine .oneByte).Runs Machine.always (init .oneByte)
        [(.requestWrite 1, .entered), (.passWrite, .granted 4096 1),
          (.commitWrite 4096 1, .wrote [0])] w := by
  have hruns : (machine .oneByte).Runs Machine.always (init .oneByte)
      [(.requestWrite 1, .entered), (.passWrite, .granted 4096 1),
        (.commitWrite 4097 1, .threw .notRequested), (.requestWrite 1, .threw .requestOutstanding),
        (.commitWrite 4096 1, .wrote [0])] _ :=
    .of_exec (fun _ _ _ => trivial) rfl
  exact ⟨_, hruns, (misuse_harmless hruns).1⟩

end World
