import Buffer2.Fifo.Statistics
import Buffer2.Workers.Termination

/-!
This module contains what the statistics of the FIFO come to in a transfer, and how far the input can be
ahead of the output.
-/

namespace Workers

variable {c : Layout} {requestSize : Nat} {stream : List UInt8} {s s' : Workers c}
variable {x : Choice ⊕ Choice} {tr : List ((Choice ⊕ Choice) × Option (Operation × Event))}

def callLength (l : Option (Operation × Event)) : Nat := (l.map World.writtenLength).getD 0

theorem total_calls (tr : List ((Choice ⊕ Choice) × Option (Operation × Event))) :
    Machine.total (fun x => callLength x.2) tr = (World.written (Machine.calls tr)).length := by
  induction tr with
  | nil => rfl
  | cons x tr ih =>
    obtain ⟨x, l⟩ := x
    rw [Machine.total_cons, ih]
    cases l with
    | none => simp [callLength, Machine.calls]
    | some y =>
      rw [show Machine.calls ((x, some y) :: tr) = [y] ++ Machine.calls tr from rfl,
        World.written_append, List.length_append]
      rfl

theorem call_of_step (hsize : 0 < requestSize) (h : Live requestSize s.shared s.left s.right)
    {l : Option (Operation × Event)} (hstep : (machine c requestSize).step s x = some (s', l)) :
    callLength l + s'.left.rest ≤ s.left.rest ∧ ∀ a e, l = some (a, e) → s.shared.PositiveCommit a := by
  cases x with
  | inl x =>
    obtain ⟨hprogram, _⟩ := Machine.compose_inl hstep
    generalize s'.shared = w', s'.left = p' at hprogram
    cases hprogram with
    | own hmove =>
      have hdone := (inputDone_own h.inv h.input hmove).rest
      refine ⟨?_, nofun⟩
      show 0 + p'.rest ≤ s.left.rest
      omega
    | call hmove hcall =>
      obtain ⟨hdone, hside, hpos⟩ := inputDone_call hsize h.inv h.input hmove hcall
      have hcases := World.step_cases h.inv.world hcall
      have hlevel := World.level_of_step h.inv.world hcases
      have hrest := hdone.rest
      rw [World.takenLength_of_drain hside hcases] at hlevel
      constructor
      . simp only [callLength, Option.map_some, Option.getD_some]
        omega
      . rintro _ _ ⟨⟩
        exact hpos
  | inr x =>
    obtain ⟨hprogram, hleft⟩ := Machine.compose_inr hstep
    rw [hleft]
    generalize s'.shared = w', s'.right = q' at hprogram
    cases hprogram with
    | own hmove =>
      refine ⟨?_, nofun⟩
      show 0 + s.left.rest ≤ s.left.rest
      omega
    | call hmove hcall =>
      obtain ⟨_, hside, hpos⟩ := outputDone_call hsize h.inv h.output hmove hcall
      have hwritten := World.writtenLength_of_source hside (World.step_cases h.inv.world hcall)
      constructor
      . simp only [callLength, Option.map_some, Option.getD_some, hwritten]
        omega
      . rintro _ _ ⟨⟩
        exact hpos

theorem length_written_le (hsize : 0 < requestSize)
    (hruns : (machine c requestSize).Runs Machine.always (init c stream) tr s) :
    (World.written (Machine.calls tr)).length ≤ stream.length := by
  have hcovered : (machine c requestSize).Amortized Machine.always
      (fun s => Live requestSize s.shared s.left s.right) (fun s => s.left.rest)
      (fun x => callLength x.2) (fun _ => 0) := by
    constructor
    . intro s x s' l h _ hstep
      exact (live_step hsize h hstep).1
    . intro s x s' l h _ hstep
      exact (call_of_step hsize h hstep).1
  have hbound := hcovered.runs hruns (live_init c requestSize stream)
  have hinit : (init c stream).left.rest = stream.length := rfl
  have hzero : Machine.total (fun _ => 0) tr = 0 := by simp [Machine.total]
  rw [total_calls, hinit, hzero] at hbound
  omega

theorem runs_calls (hsize : 0 < requestSize)
    (hruns : (machine c requestSize).Runs Machine.always (init c stream) tr s) :
    (World.machine c).Runs World.PositiveCommit (World.init c) (Machine.calls tr) s.shared := by
  show (World.machine c).Runs World.PositiveCommit (init c stream).shared (Machine.calls tr) s.shared
  apply hruns.refine (I := fun s => Live requestSize s.shared s.left s.right)
  . intro s x s' l h _ hstep
    exact (live_step hsize h hstep).1
  . intro s x s' l h _ hstep
    have hperforms := Machine.compose_performs hstep
    have hpos := (call_of_step hsize h hstep).2
    cases l with
    | none => exact hperforms
    | some y => exact ⟨hpos y.1 y.2 rfl, hperforms⟩
  . exact live_init c requestSize stream

/--
The two counts that `main` prints. Every byte of the stream is written and read at most once, so they are
bounded by the length of the stream.
-/
theorem statistics (hsize : 0 < requestSize)
    (hruns : (machine c requestSize).Runs Machine.always (init c stream) tr s) :
    World.freed c * s.shared.fifo.fullCount.toNat ≤
        stream.length + World.freed c * (Machine.calls tr).countP World.disturbsWriter ∧
      World.filled c * s.shared.fifo.emptyCount.toNat ≤
        stream.length + World.filled c +
          World.filled c * (Machine.calls tr).countP World.disturbsReader := by
  have hcalls := runs_calls hsize hruns
  have hwritten := length_written_le hsize hruns
  have htaken := World.taken_le_written hcalls
  obtain ⟨hfull, hempty⟩ := World.counts_of_runs hcalls
  have htoNat (n : Nat) : (UInt32.ofNat n).toNat ≤ n := by
    rw [UInt32.toNat_ofNat']
    apply Nat.mod_le
  constructor
  . calc
      World.freed c * s.shared.fifo.fullCount.toNat
        ≤ World.freed c * (Machine.calls tr).countP World.isFull := by
          rw [hfull]
          exact Nat.mul_le_mul_left _ (htoNat _)
      _ ≤ (World.written (Machine.calls tr)).length +
            World.freed c * (Machine.calls tr).countP World.disturbsWriter :=
          World.full_le hcalls
      _ ≤ _ := Nat.add_le_add_right hwritten _
  . calc
      World.filled c * s.shared.fifo.emptyCount.toNat
        ≤ World.filled c * (Machine.calls tr).countP World.isEmpty := by
          rw [hempty]
          exact Nat.mul_le_mul_left _ (htoNat _)
      _ ≤ (World.taken (Machine.calls tr)).length + World.filled c +
            World.filled c * (Machine.calls tr).countP World.disturbsReader :=
          World.empty_le hcalls
      _ ≤ _ := by omega

theorem statistics_oneByte :
    ∃ tr s, (machine .oneByte 1).Runs Machine.always (init .oneByte [7, 8]) tr s ∧
      s.shared.fifo.fullCount = 1 ∧ s.shared.fifo.emptyCount = 1 ∧
      World.freed .oneByte * s.shared.fifo.fullCount.toNat ≤
        2 + World.freed .oneByte * (Machine.calls tr).countP World.disturbsWriter := by
  have hruns : (machine .oneByte 1).Runs Machine.always (init .oneByte [7, 8])
      [(.inr .run, none), (.inr .run, some (.requestRead 1, .entered)),
        (.inr .run, some (.passRead, .slept)), (.inl .run, none),
        (.inl .run, some (.requestWrite 1, .entered)),
        (.inl .run, some (.passWrite, .granted 4096 1)), (.inl .byte, some (.store 4096 7, .stored)),
        (.inl .run, none), (.inl .run, some (.commitWrite 4096 1, .wrote [7])),
        (.inl .run, some (.requestWrite 1, .entered)), (.inl .run, some (.passWrite, .slept))] _ :=
    .of_exec (fun _ _ _ => trivial) rfl
  exact ⟨_, _, hruns, rfl, rfl, (statistics Nat.one_pos hruns).1⟩

section Ahead

theorem interrupted (h : Inv requestSize s.shared s.left s.right) (hx : choice x = .throws .interrupt)
    {l : Option (Operation × Event)} (hstep : (machine c requestSize).step s x = some (s', l)) :
    s.pipeline.Enabled (failOp x) ∧ s'.pipeline = s.pipeline.next (failOp x) := by
  cases x with
  | inl x =>
    obtain rfl : x = .throws .interrupt := hx
    obtain ⟨hprogram, hright⟩ := Machine.compose_inl hstep
    have hin := h.input
    unfold pipeline
    rw [hright]
    generalize s'.shared = w', s'.left = p' at hprogram
    cases hprogram with
    | own hmove =>
      cases InputWorker.move_cases hmove with
      | initializeThrew _ hpos | readThrew _ _ _ _ hpos =>
        simp only [InputWorker.Holds, hpos] at hin
        constructor
        . simp [failOp, flow, Pipeline.Enabled, InputWorker.stage, InputWorker.inFlight, hpos]
        . simp [failOp, flow, Pipeline.next, InputWorker.handle, InputWorker.stage,
            InputWorker.inFlight, hpos, hin.1]
    | call hmove => cases InputWorker.move_cases hmove
  | inr x =>
    obtain rfl : x = .throws .interrupt := hx
    obtain ⟨hprogram, hleft⟩ := Machine.compose_inr hstep
    have hout := h.output
    unfold pipeline
    rw [hleft]
    generalize s'.shared = w', s'.right = q' at hprogram
    cases hprogram with
    | own hmove =>
      cases OutputWorker.move_cases hmove with
      | initializeThrew _ hpos | writeThrew _ _ _ _ hpos =>
        simp only [OutputWorker.Holds, hpos] at hout
        constructor
        . simp [failOp, flow, Pipeline.Enabled, OutputWorker.stage, OutputWorker.outFlight, hpos]
        . simp [failOp, flow, Pipeline.next, OutputWorker.handle, OutputWorker.stage,
            OutputWorker.outFlight, hpos, hout.1]
    | call hmove => cases OutputWorker.move_cases hmove

theorem inv_pipeline_step (hsize : 0 < requestSize) (h : Inv requestSize s.shared s.left s.right)
    (hflow : s.pipeline.Inv stream) {l : Option (Operation × Event)}
    (hstep : (machine c requestSize).step s x = some (s', l)) : s'.pipeline.Inv stream := by
  by_cases hx : choice x = .throws .interrupt
  . obtain ⟨hen, heq⟩ := interrupted h hx hstep
    rw [heq]
    exact hflow.next hen
  . cases (follows hsize h hx hstep).2 with
    | idle _ heq =>
      rw [heq]
      exact hflow
    | moves _ _ hen _ heq | fails _ hen heq =>
      rw [heq]
      exact hflow.next hen

theorem inv_of_runs (hsize : 0 < requestSize)
    (hruns : (machine c requestSize).Runs Machine.always (init c stream) tr s) :
    Inv requestSize s.shared s.left s.right ∧ s.pipeline.Inv stream := by
  apply hruns.invariant (I := fun s => Inv requestSize s.shared s.left s.right ∧
    s.pipeline.Inv stream)
  . rintro s x s' l ⟨hinv, hflow⟩ _ hstep
    exact ⟨inv_step hsize hinv hstep, inv_pipeline_step hsize hinv hflow hstep⟩
  . exact ⟨inv_init c requestSize stream, Pipeline.inv_init stream⟩

theorem length_inFlight_le (h : Inv requestSize s.shared s.left s.right) :
    s.shared.fifo.level + (s.left.inFlight s.shared.fifo.buffer).length ≤ c.bufferSize := by
  have hlevel := h.world.fifo.level_le
  have hin := h.input
  unfold InputWorker.inFlight
  split
  . next buf n hpos =>
    simp only [InputWorker.Holds, hpos] at hin
    obtain ⟨_, len, hholding, hle⟩ := hin
    have hgrant := h.world.drain
    rw [hholding] at hgrant
    obtain ⟨_, hlen⟩ := hgrant
    have hfree := h.world.fifo.wrReq_le_free
    rw [Memory.length_slice]
    omega
  . simpa using hlevel

/--
However a transfer is disturbed, what has been put out is the beginning of what has been read, and the
input is never further ahead than the buffer allows.
-/
theorem ahead_le (hsize : 0 < requestSize)
    (hruns : (machine c requestSize).Runs Machine.always (init c stream) tr s) :
    s.right.accepted <+: s.left.delivered ∧ s.left.delivered ++ s.left.stream = stream ∧
      s.left.delivered.length ≤ s.right.accepted.length + c.bufferSize := by
  obtain ⟨hinv, hflow⟩ := inv_of_runs hsize hruns
  refine ⟨hflow.accepted_prefix, hflow.delivered_append_stream, ?_⟩
  obtain ⟨taken, _, hdelivered, haccepted⟩ := hflow.flow
  have hflight := length_inFlight_le hinv
  rw [show s.left.delivered = taken ++ s.shared.content ++ s.left.inFlight s.shared.fifo.buffer from
      hdelivered, show s.right.accepted = taken ++ s.right.outFlight s.shared.content from haccepted]
  simp only [List.length_append, World.length_content]
  omega

theorem ahead_le_oneByte :
    ∃ tr s, (machine .oneByte 1).Runs Machine.always (init .oneByte [7, 8]) tr s ∧
      s.right.accepted = [] ∧ s.left.delivered = [7] ∧
      s.left.delivered.length ≤ s.right.accepted.length + Layout.oneByte.bufferSize := by
  have hruns : (machine .oneByte 1).Runs Machine.always (init .oneByte [7, 8])
      [(.inl .run, none), (.inl .run, some (.requestWrite 1, .entered)),
        (.inl .run, some (.passWrite, .granted 4096 1)), (.inl .byte, some (.store 4096 7, .stored)),
        (.inl .run, none), (.inl .run, some (.commitWrite 4096 1, .wrote [7])),
        (.inl .run, some (.requestWrite 1, .entered)), (.inl .run, some (.passWrite, .slept)),
        (.inr (.throws .interrupt), none)] _ :=
    .of_exec (fun _ _ _ => trivial) rfl
  exact ⟨_, _, hruns, rfl, rfl, (ahead_le Nat.one_pos hruns).2.2⟩

end Ahead

end Workers
