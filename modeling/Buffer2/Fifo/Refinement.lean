import Buffer2.Fifo.Rules

/-!
This module contains the proof that a `StaticFIFO` is an ideal queue of bytes to its two threads, and that
the commits of a thread push and pop just what the thread asks for.
-/

open Memory

namespace World

variable {c : Layout} {w w' : World c} {tr : List (Operation × Event)}

/--
Bytes are handed over by a commit for as many bytes.
-/
def ByCommit (x : Operation × Event) : Prop :=
  match x.2 with
  | .wrote bytes => ∃ data, x.1 = .commitWrite data bytes.length
  | .took bytes => ∃ data, x.1 = .commitRead data bytes.length
  | _ => True

/--
What the threads can do: they get a range of bytes, and a commit pushes or pops the first bytes of it.
-/
structure Carries (w : World c) : Prop where
  grantWrite (len : Nat) : w.drain.ready = some len → 0 < len → w.fifo.eos = false →
    w.content.length < c.bufferSize →
    ∃ data n w', w.step .passWrite = some (w', .granted data n) ∧ 0 < n ∧ n ≤ len ∧
      w'.drain = .holding data n ∧ w'.content = w.content
  store (data len i : Nat) (b : UInt8) : w.drain = .holding data len → i < len →
    ∃ w', w.step (.store (data + i) b) = some (w', .stored) ∧ w'.drain = .holding data len ∧
      slice w'.fifo.buffer data len = (slice w.fifo.buffer data len).set i b ∧ w'.content = w.content
  push (data len n : Nat) : w.drain = .holding data len → n ≤ len →
    ∃ w', w.step (.commitWrite data n) = some (w', .wrote (slice w.fifo.buffer data n)) ∧
      w'.drain = .idle ∧ w'.content = w.content ++ slice w.fifo.buffer data n
  grantRead (len : Nat) : w.source.ready = some len → 0 < len → w.content ≠ [] →
    ∃ data n w', w.step .passRead = some (w', .granted data n) ∧ 0 < n ∧ n ≤ len ∧
      w'.source = .holding data n ∧ w'.content = w.content
  pop (data len n : Nat) : w.source = .holding data len → n ≤ len →
    ∃ w', w.step (.commitRead data n) = some (w', .took (w.content.take n)) ∧ w'.source = .idle ∧
      n ≤ w.content.length ∧ w'.content = w.content.drop n

theorem byCommit_of_step {a : Operation} {e : Event} (hinv : w.Inv) (hstep : w.step a = some (w', e)) :
    ByCommit (a, e) := by
  cases step_cases hinv hstep with
  | commitWrite | commitRead =>
    simp only [ByCommit, length_slice]
    exact ⟨_, rfl⟩
  | _ => trivial

theorem carries (hinv : w.Inv) : w.Carries where
  grantWrite len hready hlen heos hlevel := by
    rw [length_content] at hlevel
    have hpos := StaticFIFO.writeGrant_pos hinv.fifo hlen hlevel
    have hle := StaticFIFO.writeGrant_le w.fifo len
    have hstep := step_of_cases hinv (Step.writeGranted len hready heos hlevel)
    exact ⟨_, _, _, hstep, hpos, hle, rfl, rfl⟩
  store data len i b hholding hi := by
    have hstep : w.step (.store (data + i) b) =
        some ({ w with fifo := w.fifo.store (data + i) b }, .stored) := by
      simp [step, hholding, Call.free]
    obtain ⟨_, hholding', _, hquiet⟩ := store_rule hinv hholding hi hstep
    exact ⟨_, hstep, hholding', slice_update _ _ _ _ _, hquiet.content⟩
  push data len n hholding hn := by
    have hstep : w.step (.commitWrite data n) = some (w.commitWrite data n) := by
      simp [step, hholding, Call.free]
    obtain ⟨he, hidle, hcontent, _⟩ := commitWrite_rule hinv hholding hn hstep
    rw [← he]
    exact ⟨_, hstep, hidle, hcontent⟩
  grantRead len hready hlen hcontent := by
    have hlevel : 0 < w.fifo.level := by
      rw [← length_content]
      exact List.length_pos_iff.mpr hcontent
    have hpos := StaticFIFO.readGrant_pos hinv.fifo hlen hlevel
    have hle := StaticFIFO.readGrant_le w.fifo len
    have hstep := step_of_cases hinv (Step.readGranted len hready hlevel)
    exact ⟨_, _, _, hstep, hpos, hle, rfl, rfl⟩
  pop data len n hholding hn := by
    have hstep : w.step (.commitRead data n) = some (w.commitRead data n) := by
      simp [step, hholding, Call.free]
    obtain ⟨he, hidle, hcontent, _⟩ := commitRead_rule hinv hholding hn hstep
    rw [← he]
    exact ⟨_, hstep, hidle, hn.trans (le_of_holding hinv hholding), hcontent⟩

theorem refines_queue (hruns : (machine c).Runs InGrant (init c) tr w) :
    (Queue.machine UInt8).Runs Machine.always [] (tr.filterMap queueLabel) w.content ∧
      written tr = taken tr ++ w.content ∧
      (∀ data len, w.source = .holding data len →
        slice w.fifo.buffer data len = w.content.take len ∧
          ∀ tr' w', (machine c).Runs (fun w a => w.InGrant a ∧ a.side = .drain) w tr' w' →
            slice w'.fifo.buffer data len = slice w.fifo.buffer data len) ∧
      taken tr <+: written tr ∧
      w.Carries ∧ ∀ x ∈ tr, ByCommit x := by
  have hinv := (inv_init c).runs hruns
  have hwritten := written_eq hruns
  refine ⟨runs_queue (inv_init c) hruns, hwritten, ?_, ?_, carries hinv, ?_⟩
  . intro data len hsource
    exact ⟨slice_of_holding hinv hsource, fun _ _ h => slice_of_drain_runs hinv hsource h⟩
  . rw [hwritten]
    exact List.prefix_append _ _
  . apply hruns.forall_mem (I := Inv) (P := ByCommit)
    . intro v a v' e hv _ hstep
      exact ⟨hv.step hstep, byCommit_of_step hv hstep⟩
    . exact inv_init c

/--
The reader commits one byte of three, the writer goes on at the start of the buffer, and the reader holds the
last byte of the buffer.
-/
theorem refines_queue_fourBytes :
    ∃ tr w, (machine .fourBytes).Runs InGrant (init .fourBytes) tr w ∧
      (.commitRead 4096 1, .took [1]) ∈ tr ∧ w.source = .holding 4099 1 ∧ w.content = [4, 5, 6] ∧
      slice w.fifo.buffer 4099 1 = [4] ∧ written tr = taken tr ++ [4, 5, 6] ∧
      ∃ w', w.step (.commitRead 4099 1) = some (w', .took [4]) ∧ w'.content = [5, 6] := by
  have hruns : (machine .fourBytes).Runs InGrant (init .fourBytes)
      [(.requestWrite 3, .entered), (.passWrite, .granted 4096 3), (.store 4096 1, .stored),
        (.store 4097 2, .stored), (.store 4098 3, .stored), (.commitWrite 4096 3, .wrote [1, 2, 3]),
        (.requestRead 2, .entered), (.passRead, .granted 4096 2), (.commitRead 4096 1, .took [1]),
        (.requestRead 3, .entered), (.passRead, .granted 4097 2), (.commitRead 4097 2, .took [2, 3]),
        (.requestWrite 4, .entered), (.passWrite, .granted 4099 1), (.store 4099 4, .stored),
        (.commitWrite 4099 1, .wrote [4]), (.requestWrite 2, .entered), (.passWrite, .granted 4096 2),
        (.store 4096 5, .stored), (.store 4097 6, .stored), (.commitWrite 4096 2, .wrote [5, 6]),
        (.requestRead 4, .entered), (.passRead, .granted 4099 1)] _ :=
    .of_guarded (.of_exec (fun _ _ _ => trivial) rfl)
  obtain ⟨_, hwritten, hheld, _, hcarries, _⟩ := refines_queue hruns
  obtain ⟨w', hstep, _, _, hcontent⟩ := hcarries.pop 4099 1 1 rfl (Nat.le_refl 1)
  exact ⟨_, _, hruns, by simp, rfl, rfl, (hheld 4099 1 rfl).1, hwritten, w', hstep, hcontent⟩

end World
