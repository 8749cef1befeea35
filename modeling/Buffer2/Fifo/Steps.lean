import Buffer2.Fifo.Threads
import Buffer2.Fifo.Invariant

/-!
This module contains the invariant of the two threads and, under it, everything that a step can do:
one constructor of `World.Step` for each way in which an operation can go.
-/

namespace World

variable {c : Layout}

def Holds (call : Call) (pos req : Nat) : Prop :=
  match call with
  | .holding data len => data = pos ∧ len = req
  | _ => req = 0

structure Inv (w : World c) : Prop where
  fifo : w.fifo.Inv
  drain : Holds w.drain w.fifo.wrPos w.fifo.wrReq
  source : Holds w.source w.fifo.rdPos w.fifo.rdReq

theorem inv_init (c : Layout) : (init c).Inv where
  fifo := StaticFIFO.inv_init c
  drain := rfl
  source := rfl

inductive Step (w : World c) : Operation → Event → World c → Prop
  | requestWriteThrows (len : Nat) (hfree : w.drain.free = true) (hreq : w.fifo.wrReq ≠ 0) :
    Step w (.requestWrite len) (.threw .requestOutstanding) w
  | requestWrite (len : Nat) (hfree : w.drain.free = true) (hreq : w.fifo.wrReq = 0) :
    Step w (.requestWrite len) .entered { w with drain := .entering len }
  | writeEnded (len : Nat) (hready : w.drain.ready = some len) (heos : w.fifo.eos = true) :
    Step w .passWrite .ended { w with drain := .idle }
  | writeGranted (len : Nat) (hready : w.drain.ready = some len) (heos : w.fifo.eos = false)
      (hlevel : w.fifo.level < c.bufferSize) :
    Step w .passWrite (.granted w.fifo.wrPos (w.fifo.writeGrant len))
      { w with
        fifo := w.fifo.grantWrite len
        drain := .holding w.fifo.wrPos (w.fifo.writeGrant len) }
  | writeSlept (len : Nat) (hready : w.drain.ready = some len) (heos : w.fifo.eos = false)
      (hlevel : w.fifo.level = c.bufferSize) :
    Step w .passWrite .slept
      { w with
        fifo := { w.fifo with fullCount := w.fifo.fullCount + 1 }
        drain := .asleep len }
  | wakeWrite (len : Nat) (hasleep : w.drain = .asleep len) :
    Step w .wakeWrite .woken { w with drain := .notified len }
  | failWrite (len : Nat) (hwaiting : w.drain.waiting = some len) :
    Step w .failWrite .ended { w with drain := .idle }
  | store (addr : Nat) (b : UInt8) (hfree : w.drain.free = true) :
    Step w (.store addr b) .stored { w with fifo := w.fifo.store addr b }
  | commitWriteUnrequested (data len : Nat) (hfree : w.drain.free = true) (hdata : data ≠ w.fifo.wrPos) :
    Step w (.commitWrite data len) (.threw .notRequested) w
  | commitWriteTooLarge (len : Nat) (hfree : w.drain.free = true) (hlen : w.fifo.wrReq < len) :
    Step w (.commitWrite w.fifo.wrPos len) (.threw .largerThanRequested) w
  | commitWrite (len : Nat) (hfree : w.drain.free = true) (hlen : len ≤ w.fifo.wrReq) :
    Step w (.commitWrite w.fifo.wrPos len) (.wrote (Memory.slice w.fifo.buffer w.fifo.wrPos len))
      { fifo := w.fifo.wrote len
        drain := .idle
        source := w.source.notifyIf (decide (c.highWaterMark ≤ w.fifo.level + len)) }
  | endWrite (hfree : w.drain.free = true) :
    Step w .endWrite .closed
      { fifo := w.fifo.endWrite
        drain := .idle
        source := w.source.notifyAll }
  | requestReadThrows (len : Nat) (hfree : w.source.free = true) (hreq : w.fifo.rdReq ≠ 0) :
    Step w (.requestRead len) (.threw .requestOutstanding) w
  | requestRead (len : Nat) (hfree : w.source.free = true) (hreq : w.fifo.rdReq = 0) :
    Step w (.requestRead len) .entered { w with source := .entering len }
  | readGranted (len : Nat) (hready : w.source.ready = some len) (hlevel : 0 < w.fifo.level) :
    Step w .passRead (.granted w.fifo.rdPos (w.fifo.readGrant len))
      { w with
        fifo := w.fifo.grantRead len
        source := .holding w.fifo.rdPos (w.fifo.readGrant len) }
  | readEnded (len : Nat) (hready : w.source.ready = some len) (hlevel : w.fifo.level = 0)
      (heos : w.fifo.eos = true) :
    Step w .passRead .ended { w with source := .idle }
  | readSlept (len : Nat) (hready : w.source.ready = some len) (hlevel : w.fifo.level = 0)
      (heos : w.fifo.eos = false) :
    Step w .passRead .slept
      { w with
        fifo := { w.fifo with emptyCount := w.fifo.emptyCount + 1 }
        source := .asleep len }
  | wakeRead (len : Nat) (hasleep : w.source = .asleep len) :
    Step w .wakeRead .woken { w with source := .notified len }
  | failRead (len : Nat) (hwaiting : w.source.waiting = some len) :
    Step w .failRead .ended { w with source := .idle }
  | commitReadUnrequested (data len : Nat) (hfree : w.source.free = true) (hdata : data ≠ w.fifo.rdPos) :
    Step w (.commitRead data len) (.threw .notRequested) w
  | commitReadTooLarge (len : Nat) (hfree : w.source.free = true) (hlen : w.fifo.rdReq < len) :
    Step w (.commitRead w.fifo.rdPos len) (.threw .largerThanRequested) w
  | commitRead (len : Nat) (hfree : w.source.free = true) (hlen : len ≤ w.fifo.rdReq) :
    Step w (.commitRead w.fifo.rdPos len) (.took (Memory.slice w.fifo.buffer w.fifo.rdPos len))
      { fifo := w.fifo.took len
        drain := w.drain.notifyIf (decide (w.fifo.level - len ≤ c.lowWaterMark))
        source := .idle }
  | endRead (hfree : w.source.free = true) :
    Step w .endRead .closed
      { fifo := w.fifo.endRead
        drain := w.drain.notifyAll
        source := .idle }

section Cases

variable {w w' : World c} {e : Event}

theorem step_requestWrite {len : Nat} (h : w.step (.requestWrite len) = some (w', e)) :
    Step w (.requestWrite len) e w' := by
  simp only [step, Option.ite_none_right_eq_some, Option.some.injEq] at h
  obtain ⟨hfree, h⟩ := h
  unfold World.requestWrite StaticFIFO.requestWriteTest at h
  split at h
  . next hreq =>
    split at hreq
    . cases hreq
      cases h
      apply Step.requestWriteThrows
      . exact hfree
      . assumption
    . cases hreq
  . next hreq =>
    split at hreq
    . cases hreq
    . cases h
      apply Step.requestWrite
      . exact hfree
      . omega

theorem step_requestRead {len : Nat} (h : w.step (.requestRead len) = some (w', e)) :
    Step w (.requestRead len) e w' := by
  simp only [step, Option.ite_none_right_eq_some, Option.some.injEq] at h
  obtain ⟨hfree, h⟩ := h
  unfold World.requestRead StaticFIFO.requestReadTest at h
  split at h
  . next hreq =>
    split at hreq
    . cases hreq
      cases h
      apply Step.requestReadThrows
      . exact hfree
      . assumption
    . cases hreq
  . next hreq =>
    split at hreq
    . cases hreq
    . cases h
      apply Step.requestRead
      . exact hfree
      . omega

theorem step_passWrite (hinv : w.Inv) (h : w.step .passWrite = some (w', e)) :
    Step w .passWrite e w' := by
  simp only [step, Option.map_eq_some_iff] at h
  obtain ⟨len, hready, h⟩ := h
  unfold World.passWrite at h
  rw [StaticFIFO.requestWritePass_eq hinv.fifo] at h
  by_cases heos : w.fifo.eos = true
  . rw [if_pos heos] at h
    cases h
    apply Step.writeEnded
    . exact hready
    . exact heos
  . rw [if_neg heos] at h
    have hle := hinv.fifo.level_le
    by_cases hlevel : w.fifo.level < c.bufferSize
    . rw [if_pos hlevel] at h
      cases h
      apply Step.writeGranted
      . exact hready
      . simpa using heos
      . exact hlevel
    . rw [if_neg hlevel] at h
      cases h
      apply Step.writeSlept
      . exact hready
      . simpa using heos
      . omega

theorem step_passRead (hinv : w.Inv) (h : w.step .passRead = some (w', e)) :
    Step w .passRead e w' := by
  simp only [step, Option.map_eq_some_iff] at h
  obtain ⟨len, hready, h⟩ := h
  unfold World.passRead at h
  rw [StaticFIFO.requestReadPass_eq hinv.fifo] at h
  by_cases hlevel : 0 < w.fifo.level
  . rw [if_pos hlevel] at h
    cases h
    apply Step.readGranted
    . exact hready
    . exact hlevel
  . rw [if_neg hlevel] at h
    by_cases heos : w.fifo.eos = true
    . rw [if_pos heos] at h
      cases h
      apply Step.readEnded
      . exact hready
      . omega
      . exact heos
    . rw [if_neg heos] at h
      cases h
      apply Step.readSlept
      . exact hready
      . omega
      . simpa using heos

theorem step_commitWrite {data len : Nat} (hinv : w.Inv)
    (h : w.step (.commitWrite data len) = some (w', e)) : Step w (.commitWrite data len) e w' := by
  simp only [step, Option.ite_none_right_eq_some, Option.some.injEq] at h
  obtain ⟨hfree, h⟩ := h
  unfold World.commitWrite at h
  rw [StaticFIFO.commitWrite_eq hinv.fifo] at h
  by_cases hdata : data = w.fifo.wrPos
  . subst hdata
    by_cases hlen : w.fifo.wrReq < len
    . simp only [ne_eq, not_true_eq_false, hlen, ↓reduceIte] at h
      cases h
      apply Step.commitWriteTooLarge
      . exact hfree
      . exact hlen
    . simp only [ne_eq, not_true_eq_false, hlen, ↓reduceIte] at h
      cases h
      apply Step.commitWrite
      . exact hfree
      . omega
  . simp only [ne_eq, hdata, not_false_eq_true, ↓reduceIte] at h
    cases h
    apply Step.commitWriteUnrequested
    . exact hfree
    . exact hdata

theorem step_commitRead {data len : Nat} (hinv : w.Inv)
    (h : w.step (.commitRead data len) = some (w', e)) : Step w (.commitRead data len) e w' := by
  simp only [step, Option.ite_none_right_eq_some, Option.some.injEq] at h
  obtain ⟨hfree, h⟩ := h
  unfold World.commitRead at h
  rw [StaticFIFO.commitRead_eq hinv.fifo] at h
  by_cases hdata : data = w.fifo.rdPos
  . subst hdata
    by_cases hlen : w.fifo.rdReq < len
    . simp only [ne_eq, not_true_eq_false, hlen, ↓reduceIte] at h
      cases h
      apply Step.commitReadTooLarge
      . exact hfree
      . exact hlen
    . simp only [ne_eq, not_true_eq_false, hlen, ↓reduceIte] at h
      cases h
      apply Step.commitRead
      . exact hfree
      . omega
  . simp only [ne_eq, hdata, not_false_eq_true, ↓reduceIte] at h
    cases h
    apply Step.commitReadUnrequested
    . exact hfree
    . exact hdata

theorem step_cases {a : Operation} (hinv : w.Inv) (h : w.step a = some (w', e)) : Step w a e w' := by
  cases a with
  | requestWrite len => exact step_requestWrite h
  | passWrite => exact step_passWrite hinv h
  | wakeWrite =>
    simp only [step] at h
    split at h
    . next len hasleep =>
      cases h
      apply Step.wakeWrite
      exact hasleep
    . cases h
  | failWrite =>
    simp only [step, Option.map_eq_some_iff] at h
    obtain ⟨len, hwaiting, h⟩ := h
    cases h
    apply Step.failWrite
    exact hwaiting
  | store addr b =>
    simp only [step, Option.ite_none_right_eq_some, Option.some.injEq] at h
    obtain ⟨hfree, h⟩ := h
    cases h
    apply Step.store
    exact hfree
  | commitWrite data len => exact step_commitWrite hinv h
  | endWrite =>
    simp only [step, Option.ite_none_right_eq_some, Option.some.injEq] at h
    obtain ⟨hfree, h⟩ := h
    cases h
    apply Step.endWrite
    exact hfree
  | requestRead len => exact step_requestRead h
  | passRead => exact step_passRead hinv h
  | wakeRead =>
    simp only [step] at h
    split at h
    . next len hasleep =>
      cases h
      apply Step.wakeRead
      exact hasleep
    . cases h
  | failRead =>
    simp only [step, Option.map_eq_some_iff] at h
    obtain ⟨len, hwaiting, h⟩ := h
    cases h
    apply Step.failRead
    exact hwaiting
  | commitRead data len => exact step_commitRead hinv h
  | endRead =>
    simp only [step, Option.ite_none_right_eq_some, Option.some.injEq] at h
    obtain ⟨hfree, h⟩ := h
    cases h
    apply Step.endRead
    exact hfree

theorem step_of_cases {a : Operation} (hinv : w.Inv) (h : Step w a e w') : w.step a = some (w', e) := by
  cases h with
  | requestWriteThrows len hfree hreq =>
    simp [step, hfree, World.requestWrite, StaticFIFO.requestWriteTest, hreq]
  | requestWrite len hfree hreq =>
    simp [step, hfree, World.requestWrite, StaticFIFO.requestWriteTest, hreq]
  | writeEnded len hready heos =>
    simp [step, hready, World.passWrite, StaticFIFO.requestWritePass_eq hinv.fifo, heos]
  | writeGranted len hready heos hlevel =>
    simp [step, hready, World.passWrite, StaticFIFO.requestWritePass_eq hinv.fifo, heos, hlevel]
  | writeSlept len hready heos hlevel =>
    simp [step, hready, World.passWrite, StaticFIFO.requestWritePass_eq hinv.fifo, heos, hlevel]
  | wakeWrite len hasleep => simp [step, hasleep]
  | failWrite len hwaiting => simp [step, hwaiting]
  | store addr b hfree => simp [step, hfree]
  | commitWriteUnrequested data len hfree hdata =>
    simp [step, hfree, World.commitWrite, StaticFIFO.commitWrite_eq hinv.fifo, hdata]
  | commitWriteTooLarge len hfree hlen =>
    simp [step, hfree, World.commitWrite, StaticFIFO.commitWrite_eq hinv.fifo, hlen]
  | commitWrite len hfree hlen =>
    simp [step, hfree, World.commitWrite, StaticFIFO.commitWrite_eq hinv.fifo, Nat.not_lt.mpr hlen]
  | endWrite hfree => simp [step, hfree, World.endWrite]
  | requestReadThrows len hfree hreq =>
    simp [step, hfree, World.requestRead, StaticFIFO.requestReadTest, hreq]
  | requestRead len hfree hreq =>
    simp [step, hfree, World.requestRead, StaticFIFO.requestReadTest, hreq]
  | readGranted len hready hlevel =>
    simp [step, hready, World.passRead, StaticFIFO.requestReadPass_eq hinv.fifo, hlevel]
  | readEnded len hready hlevel heos =>
    simp [step, hready, World.passRead, StaticFIFO.requestReadPass_eq hinv.fifo, heos, hlevel]
  | readSlept len hready hlevel heos =>
    simp [step, hready, World.passRead, StaticFIFO.requestReadPass_eq hinv.fifo, heos, hlevel]
  | wakeRead len hasleep => simp [step, hasleep]
  | failRead len hwaiting => simp [step, hwaiting]
  | commitReadUnrequested data len hfree hdata =>
    simp [step, hfree, World.commitRead, StaticFIFO.commitRead_eq hinv.fifo, hdata]
  | commitReadTooLarge len hfree hlen =>
    simp [step, hfree, World.commitRead, StaticFIFO.commitRead_eq hinv.fifo, hlen]
  | commitRead len hfree hlen =>
    simp [step, hfree, World.commitRead, StaticFIFO.commitRead_eq hinv.fifo, Nat.not_lt.mpr hlen]
  | endRead hfree => simp [step, hfree, World.endRead]

end Cases

section Invariant

variable {w w' : World c} {a : Operation} {e : Event}

@[simp]
theorem holds_notifyAll {call : Call} {pos req : Nat} :
    Holds call.notifyAll pos req ↔ Holds call pos req := by
  cases call <;> simp [Holds, Call.notifyAll]

@[simp]
theorem holds_notifyIf {notify : Bool} {call : Call} {pos req : Nat} :
    Holds (call.notifyIf notify) pos req ↔ Holds call pos req := by
  cases notify <;> simp [Call.notifyIf]

theorem Holds.of_ready {call : Call} {pos req len : Nat} (h : Holds call pos req)
    (hready : call.ready = some len) : req = 0 := by
  cases call <;> simp_all [Holds, Call.ready]

theorem Holds.of_waiting {call : Call} {pos req len : Nat} (h : Holds call pos req)
    (hwaiting : call.waiting = some len) : req = 0 := by
  cases call <;> simp_all [Holds, Call.waiting]

theorem Inv.of_step (h : w.Inv) (hstep : Step w a e w') : w'.Inv := by
  have hfifo := h.fifo
  have hdrain := h.drain
  have hsource := h.source
  cases hstep with
  | requestWriteThrows => exact h
  | requestWrite len hfree hreq => exact ⟨hfifo, hreq, hsource⟩
  | writeEnded len hready => exact ⟨hfifo, hdrain.of_ready hready, hsource⟩
  | writeGranted len => exact ⟨hfifo.grantWrite len, ⟨rfl, rfl⟩, hsource⟩
  | writeSlept len hready => exact ⟨{ hfifo with }, hdrain.of_ready hready, hsource⟩
  | wakeWrite len hasleep =>
    rw [hasleep] at hdrain
    exact ⟨hfifo, hdrain, hsource⟩
  | failWrite len hwaiting => exact ⟨hfifo, hdrain.of_waiting hwaiting, hsource⟩
  | store addr b => exact ⟨hfifo.store addr b, hdrain, hsource⟩
  | commitWriteUnrequested | commitWriteTooLarge => exact h
  | commitWrite len hfree hlen => exact ⟨hfifo.wrote hlen, rfl, by simpa using hsource⟩
  | endWrite => exact ⟨hfifo.endWrite, rfl, by simpa using hsource⟩
  | requestReadThrows => exact h
  | requestRead len hfree hreq => exact ⟨hfifo, hdrain, hreq⟩
  | readGranted len => exact ⟨hfifo.grantRead len, hdrain, ⟨rfl, rfl⟩⟩
  | readEnded len hready => exact ⟨hfifo, hdrain, hsource.of_ready hready⟩
  | readSlept len hready => exact ⟨{ hfifo with }, hdrain, hsource.of_ready hready⟩
  | wakeRead len hasleep =>
    rw [hasleep] at hsource
    exact ⟨hfifo, hdrain, hsource⟩
  | failRead len hwaiting => exact ⟨hfifo, hdrain, hsource.of_waiting hwaiting⟩
  | commitReadUnrequested | commitReadTooLarge => exact h
  | commitRead len hfree hlen => exact ⟨hfifo.took hlen, by simpa using hdrain, rfl⟩
  | endRead => exact ⟨hfifo.endRead, by simpa using hdrain, rfl⟩

theorem Inv.step (h : w.Inv) (hstep : w.step a = some (w', e)) : w'.Inv :=
  h.of_step (step_cases h hstep)

end Invariant

section Runs

variable {G : World c → Operation → Prop} {w w' : World c} {tr : List (Operation × Event)}

theorem Inv.runs (h : w.Inv) (hruns : (machine c).Runs G w tr w') : w'.Inv :=
  hruns.invariant (fun _ _ _ _ hw _ hstep => hw.step hstep) h

theorem Inv.history {I : List (Operation × Event) → World c → Prop} (h : w.Inv)
    (hruns : (machine c).Runs G w tr w')
    (hI : ∀ tr v a v' e, v.Inv → I tr v → G v a → Step v a e v' → I (tr ++ [(a, e)]) v')
    (hw : I [] w) : I tr w' := by
  have hboth : w'.Inv ∧ I tr w' := by
    apply hruns.history (I := fun tr v => v.Inv ∧ I tr v)
    . rintro tr v a v' e ⟨hv, hI'⟩ hG hstep
      have hcases := step_cases hv hstep
      constructor
      . exact hv.of_step hcases
      . exact hI _ _ _ _ _ hv hI' hG hcases
    . exact ⟨h, hw⟩
  exact hboth.2

theorem Inv.invariant {I : World c → Prop} (h : w.Inv) (hruns : (machine c).Runs G w tr w')
    (hI : ∀ v a v' e, v.Inv → I v → G v a → Step v a e v' → I v') (hw : I w) : I w' := by
  apply h.history (I := fun _ v => I v) hruns
  . intro _ v a v' e hv
    exact hI v a v' e hv
  . exact hw

end Runs

end World
