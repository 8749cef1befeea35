import Buffer2.Machine.Occurrence
import Buffer2.Workers.Statistics

/-!
This module contains what the exit value of `buffer2` says about its input and output: it is the code of
the failure that one of them has met, and the FIFO is never the reason for it.
-/

namespace Workers

variable {c : Layout} {requestSize : Nat} {stream : List UInt8} {s s' : Workers c}
variable {x : Choice ⊕ Choice} {l : Option (Operation × Event)}
variable {tr : List ((Choice ⊕ Choice) × Option (Operation × Event))}

/--
The result of a worker whose interface throws `e`, where `own` is the one for a `runtime_error`.
-/
def resultOf (own : Nat) (e : Exception) : Option Nat :=
  match e with
  | .interrupt => none
  | .runtime => some own
  | .logic => some 19
  | .other => some 28

def inputFailure (_ : Workers c) (x : Choice ⊕ Choice) : Option Nat :=
  match x with
  | .inl (.throws e) => resultOf 10 e
  | _ => none

def outputFailure (s : Workers c) (x : Choice ⊕ Choice) : Option Nat :=
  match x with
  | .inr (.throws e) => resultOf 11 e
  | .inr .run =>
    match s.right.pos with
    | .writing _ _ [] => some 11
    | _ => none
  | _ => none

def recorded (result : Nat) : Option Nat := if result = 0 then none else some result

theorem recorded_eq_some {result v : Nat} (hv : v ≠ 0) : recorded result = some v ↔ result = v := by
  unfold recorded
  split <;> simp_all [eq_comm]

theorem recorded_handle {result result' own v : Nat} {e : Exception} (hown : own ≠ 0) (hzero : result = 0)
    (hresult : result' = (resultOf own e).getD result) (hv : resultOf own e = some v) :
    recorded result = none ∧ recorded result' = some v := by
  rw [hv, Option.getD_some] at hresult
  have hne : v ≠ 0 := by
    cases e <;> simp_all [resultOf]
    all_goals omega
  simp [recorded, hzero, hresult, hne]

section Input

theorem input_handle_result (p : InputWorker) (e : Exception) :
    (p.handle e).result = (resultOf 10 e).getD p.result := by
  cases e <;> rfl

theorem input_quiet (hsize : 0 < requestSize) (h : Inv requestSize s.shared s.left s.right)
    (hstep : (machine c requestSize).step s x = some (s', l)) (hnone : s.inputFailure x = none) :
    s'.left.result = s.left.result := by
  cases x with
  | inl x =>
    obtain ⟨hprogram, _⟩ := Machine.compose_inl hstep
    generalize s'.shared = w', s'.left = p' at hprogram
    cases hprogram with
    | own hmove =>
      cases InputWorker.move_cases hmove with
      | initializeThrew e | readThrew _ _ _ e =>
        have hnone : resultOf 10 e = none := hnone
        rw [input_handle_result, hnone]
        rfl
      | _ => rfl
    | call hmove hcall =>
      have hnot := input_not_threw hsize h hmove hcall
      cases InputWorker.move_cases hmove with
      | requestWrite | passWrite | wakeWrite | failWrite => exact input_resume_result hnot
      | commitWrite => exact input_resumeCommit_result hnot
      | _ => rfl
  | inr x => rw [(Machine.compose_inr hstep).2]

theorem input_first {v : Nat} (h : Inv requestSize s.shared s.left s.right)
    (hstep : (machine c requestSize).step s x = some (s', l)) (hsome : s.inputFailure x = some v) :
    recorded s.left.result = none ∧ recorded s'.left.result = some v := by
  have hin := h.input
  cases x with
  | inl x =>
    obtain ⟨hprogram, _⟩ := Machine.compose_inl hstep
    generalize s'.shared = w', s'.left = p' at hprogram
    cases hprogram with
    | own hmove =>
      cases InputWorker.move_cases hmove with
      | initializeThrew e hpos | readThrew _ _ _ e hpos =>
        simp only [InputWorker.Holds, hpos] at hin
        exact recorded_handle (by decide) hin.1 (input_handle_result _ e) hsome
      | _ => cases hsome
    | call hmove => cases InputWorker.move_cases hmove <;> cases hsome
  | inr x => cases hsome

end Input

section Output

theorem output_handle_result (q : OutputWorker) (e : Exception) :
    (q.handle e).result = (resultOf 11 e).getD q.result := by
  cases e <;> rfl

theorem output_quiet (hsize : 0 < requestSize) (h : Inv requestSize s.shared s.left s.right)
    (hstep : (machine c requestSize).step s x = some (s', l)) (hnone : s.outputFailure x = none) :
    s'.right.result = s.right.result := by
  cases x with
  | inl x => rw [(Machine.compose_inl hstep).2]
  | inr x =>
    obtain ⟨hprogram, _⟩ := Machine.compose_inr hstep
    generalize s'.shared = w', s'.right = q' at hprogram
    cases hprogram with
    | own hmove =>
      cases OutputWorker.move_cases hmove with
      | initializeThrew e | writeThrew _ _ _ e =>
        have hnone : resultOf 11 e = none := hnone
        rw [output_handle_result, hnone]
        rfl
      | writeRefused buf len hpos => simp [outputFailure, hpos] at hnone
      | _ => rfl
    | call hmove hcall =>
      have hnot := output_not_threw hsize h hmove hcall
      cases OutputWorker.move_cases hmove with
      | requestRead | passRead | wakeRead | failRead => exact output_resume_result hnot
      | commitRead => exact output_resumeCommit_result hnot
      | _ => rfl

theorem output_first {v : Nat} (h : Inv requestSize s.shared s.left s.right)
    (hstep : (machine c requestSize).step s x = some (s', l)) (hsome : s.outputFailure x = some v) :
    recorded s.right.result = none ∧ recorded s'.right.result = some v := by
  have hout := h.output
  cases x with
  | inl x => cases hsome
  | inr x =>
    obtain ⟨hprogram, _⟩ := Machine.compose_inr hstep
    generalize s'.shared = w', s'.right = q' at hprogram
    cases hprogram with
    | own hmove =>
      cases OutputWorker.move_cases hmove with
      | initializeThrew e hpos | writeThrew _ _ _ e hpos =>
        simp only [OutputWorker.Holds, hpos] at hout
        exact recorded_handle (by decide) hout.1 (output_handle_result _ e) hsome
      | writeRefused buf len hpos =>
        simp only [OutputWorker.Holds, hpos] at hout
        simp only [outputFailure, hpos, Option.some.injEq] at hsome
        simp [recorded, hout.1, OutputWorker.handle, hsome]
        omega
      | initialized hpos | load _ _ _ hpos | writeData _ _ _ hpos =>
        simp_all [outputFailure]
    | call hmove =>
      cases OutputWorker.move_cases hmove with
      | requestRead hpos | passRead hpos | commitRead _ _ hpos | endRead hpos =>
        simp [outputFailure, hpos] at hsome
      | wakeRead | failRead => cases hsome

end Output

theorem records_input (hsize : 0 < requestSize) :
    (machine c requestSize).Records Machine.always (fun s => Inv requestSize s.shared s.left s.right)
      (fun s => recorded s.left.result) inputFailure where
  invariant _ _ _ _ h _ hstep := inv_step hsize h hstep
  quiet _ _ _ _ h _ hstep hnone := congrArg recorded (input_quiet hsize h hstep hnone)
  first _ _ _ _ _ h _ hstep hsome := input_first h hstep hsome

theorem records_output (hsize : 0 < requestSize) :
    (machine c requestSize).Records Machine.always (fun s => Inv requestSize s.shared s.left s.right)
      (fun s => recorded s.right.result) outputFailure where
  invariant _ _ _ _ h _ hstep := inv_step hsize h hstep
  quiet _ _ _ _ h _ hstep hnone := congrArg recorded (output_quiet hsize h hstep hnone)
  first _ _ _ _ _ h _ hstep hsome := output_first h hstep hsome

theorem exitValue_eq_zero {s : Workers c} :
    s.exitValue = 0 ↔ s.left.result = 0 ∧ s.right.result = 0 := by
  unfold exitValue
  split <;> simp_all

theorem exitValue_eq {s : Workers c} {v : Nat} (hv : v ≠ 0) :
    s.exitValue = v ↔ s.left.result = v ∨ s.left.result = 0 ∧ s.right.result = v := by
  unfold exitValue
  split <;> grind

def Fails (s : Workers c) (x : Choice ⊕ Choice) (v : Nat) : Prop :=
  s.inputFailure x = some v ∨ s.outputFailure x = some v

/--
`main` prefers the failure of the input. Nothing but a failure makes the exit value differ from 0, in
particular no error of the FIFO, and no failure is lost.
-/
theorem exitValue_cause (hsize : 0 < requestSize)
    (hruns : (machine c requestSize).Runs Machine.always (init c stream) tr s) :
    (s.exitValue = 0 ↔
        (machine c requestSize).Runs (fun s x => ∀ v, ¬ s.Fails x v) (init c stream) tr s) ∧
      ∀ v, v ≠ 0 → (s.exitValue = v ↔
        (machine c requestSize).Occurs (fun s x => s.inputFailure x = some v) (init c stream) tr ∨
          (∀ u, ¬ (machine c requestSize).Occurs (fun s x => s.inputFailure x = some u)
            (init c stream) tr) ∧
          (machine c requestSize).Occurs (fun s x => s.outputFailure x = some v) (init c stream) tr) := by
  have hinit := inv_init c requestSize stream
  have hinput := (records_input hsize).runs hruns hinit rfl
  have houtput := (records_output hsize).runs hruns hinit rfl
  have hzero (result : Nat) : result = 0 ↔ ∀ v, ¬ recorded result = some v := by
    rw [← Option.eq_none_iff_forall_ne_some]
    unfold recorded
    split <;> simp_all
  constructor
  . rw [exitValue_eq_zero, hzero s.left.result, hzero s.right.result]
    simp only [hinput, houtput]
    have hnot := hruns.not_occurs_iff (P := fun s x => ∃ v, s.Fails x v)
    simp only [Fails, Machine.occurs_exists, Machine.occurs_or, Machine.always, true_and, not_exists,
      not_or, forall_and] at hnot ⊢
    exact hnot
  . intro v hv
    rw [exitValue_eq hv, ← recorded_eq_some hv, hinput, ← recorded_eq_some hv, houtput,
      hzero s.left.result]
    simp only [hinput]

theorem exitValue_cause_oneByte :
    ∃ tr s, (machine .oneByte 1).Runs Machine.always (init .oneByte [7]) tr s ∧ s.Finished ∧
      s.left.result = 0 ∧ s.exitValue = 11 ∧
      (machine .oneByte 1).Occurs (fun s x => s.outputFailure x = some 11) (init .oneByte [7]) tr := by
  have hruns : (machine .oneByte 1).Runs Machine.always (init .oneByte [7])
      [(.inl .run, none), (.inl .run, some (.requestWrite 1, .entered)),
        (.inl .run, some (.passWrite, .granted 4096 1)), (.inl .byte, some (.store 4096 7, .stored)),
        (.inl .run, none), (.inl .run, some (.commitWrite 4096 1, .wrote [7])), (.inr .run, none),
        (.inr .run, some (.requestRead 1, .entered)), (.inr .run, some (.passRead, .granted 4096 1)),
        (.inr .run, none), (.inr .run, some (.endRead, .closed)),
        (.inl .run, some (.requestWrite 1, .entered)), (.inl .run, some (.passWrite, .ended)),
        (.inl .run, some (.endWrite, .closed))] _ :=
    .of_exec (fun _ _ _ => trivial) rfl
  have hcause := ((exitValue_cause Nat.one_pos hruns).2 11 (by decide)).mp rfl
  refine ⟨_, _, hruns, ⟨rfl, rfl⟩, rfl, rfl, ?_⟩
  exact hcause.elim (fun h => absurd h (by simp [Machine.Occurs, inputFailure])) And.right

end Workers
