import Buffer2.Machine.Refinement
import Buffer2.Workers.Flow

/-!
This module contains what the exit value of `buffer2` says about the output.
-/

namespace Workers

variable {c : Layout} {requestSize : Nat} {stream : List UInt8} {s : Workers c}
variable {tr : List ((Choice ⊕ Choice) × Option (Operation × Event))}

/--
A call of `Wait` fails only when there is nothing left to wait for: `NotifyDrain.Wait` when the stream
is at its end, `NotifySource.Wait` when moreover everything has been written and read.
-/
def NothingLeft (s : Workers c) (x : Choice ⊕ Choice) : Prop :=
  match x with
  | .inl .waitFails => s.left.stream = []
  | .inr .waitFails =>
    s.shared.content = [] ∧ s.left.inFlight s.shared.fifo.buffer = [] ∧ s.left.stream = []
  | _ => True

theorem nothingLeft_iff {x : Choice ⊕ Choice} (hx : choice x = .waitFails) :
    s.NothingLeft x ↔ s.pipeline.Harmless (failOp x) := by
  cases x with
  | inl x =>
    obtain rfl : x = .waitFails := hx
    exact Iff.rfl
  | inr x =>
    obtain rfl : x = .waitFails := hx
    simp [NothingLeft, Pipeline.Harmless, failOp, Pipeline.remaining, pipeline, flow]

theorem nothingLeft_of_not_waitFails {x : Choice ⊕ Choice} (hx : choice x ≠ .waitFails) :
    s.NothingLeft x := by
  unfold NothingLeft
  split <;> simp_all [choice]

def Harmless (s : Workers c) (x : Choice ⊕ Choice) : Prop :=
  s.NothingLeft x ∧ choice x ≠ .throws .interrupt

theorem finished_pipeline (h : s.Finished) : s.pipeline.Finished := by
  obtain ⟨hleft, hright⟩ := h
  refine ⟨s.left.result, s.right.result, ?_, ?_⟩
  . simp [pipeline, flow, InputWorker.stage, hleft]
  . simp [pipeline, flow, OutputWorker.stage, hright]

theorem result_of_finished (h : s.Finished) :
    s.pipeline.input.result = s.left.result ∧ s.pipeline.output.result = s.right.result := by
  obtain ⟨hleft, hright⟩ := h
  simp [pipeline, flow, InputWorker.stage, OutputWorker.stage, Stage.result, hleft, hright]

theorem runs_pipeline (hsize : 0 < requestSize)
    (hruns : (machine c requestSize).Runs Harmless (init c stream) tr s) :
    ∃ tr', (Pipeline.machine UInt8).Runs (fun p op => p.Enabled op ∧ p.Harmless op)
      (Pipeline.init stream) tr' s.pipeline := by
  apply hruns.simulate pipeline (I := fun s => Inv requestSize s.shared s.left s.right)
  . rintro s x s' l hinv ⟨hharm, hx⟩ hstep
    obtain ⟨hinv', hfollows⟩ := follows hsize hinv hx hstep
    constructor
    . exact hinv'
    . cases hfollows with
      | idle _ heq => exact .inl heq
      | moves op _ hen hop heq => exact .inr ⟨op, (), ⟨hen, hop _⟩, by rw [heq]; rfl⟩
      | fails hfails hen heq =>
        exact .inr ⟨failOp x, (), ⟨hen, (nothingLeft_iff hfails).mp hharm⟩, by rw [heq]; rfl⟩
  . apply inv_init

theorem accepted_eq_stream (hsize : 0 < requestSize)
    (hruns : (machine c requestSize).Runs Harmless (init c stream) tr s) (hfin : s.Finished)
    (hexit : s.exitValue = 0) : s.right.accepted = stream := by
  obtain ⟨tr', hpipeline⟩ := runs_pipeline hsize hruns
  obtain ⟨hinv, hcomplete⟩ := Pipeline.complete_of_runs hpipeline
  obtain ⟨hin, hout⟩ := result_of_finished hfin
  have hresults : s.left.result = 0 ∧ s.right.result = 0 := by
    unfold exitValue at hexit
    split at hexit
    . next hne => exact absurd hexit hne
    . next heq => exact ⟨by simpa using heq, hexit⟩
  exact hinv.accepted_eq_input hcomplete (finished_pipeline hfin) (hin.trans hresults.1)
    (hout.trans hresults.2)

end Workers
