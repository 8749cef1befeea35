import Buffer2.Fifo.Wakeup
import Buffer2.Fifo.Woken

/-!
This module contains the proofs that a request gets on: the other side only brings it closer to its
return, and its own passes do so too, apart from those after a wake-up that nobody has asked for.
-/

/--
What is still to be done in a request, `again` being whether its next pass would go to sleep.
-/
def Call.work (call : Call) (again : Bool) : Nat :=
  match call with
  | .entering _ => 5
  | .asleep _ => 4
  | .notified _ => if again then 5 else 3
  | _ => 0

theorem Call.work_le (call : Call) (again : Bool) : call.work again ≤ 5 := by
  unfold work
  split
  . omega
  . omega
  . split <;> omega
  . omega

theorem Call.work_notifyIf {call : Call} {notify again again' : Bool}
    (hnotify : notify = true → again' = false) (hagain : again' = true → again = true) :
    (call.notifyIf notify).work again' ≤ call.work again := by
  cases call with
  | asleep len =>
    cases notify with
    | true => simp [notifyIf, notifyAll, work, hnotify rfl]
    | false => simp [notifyIf, work]
  | notified len =>
    rw [show (Call.notified len).notifyIf notify = .notified len by cases notify <;> rfl]
    cases again' with
    | true => simp [work, hagain rfl]
    | false =>
      simp only [work, Bool.false_eq_true, ↓reduceIte]
      split <;> omega
  | idle | holding | entering => cases notify <;> simp [notifyIf, notifyAll, work]

theorem Call.work_of_pending {call : Call} {len : Nat} (h : call.pending = some len) (again : Bool) :
    3 ≤ call.work again := by
  cases call with
  | entering | asleep => simp [work]
  | notified =>
    simp only [work]
    split <;> omega
  | _ => cases h

theorem Call.work_of_ready_again {call : Call} {len : Nat} (h : call.ready = some len) :
    call.work true = 5 := by
  cases call with
  | entering | notified => rfl
  | _ => cases h

theorem Call.free_of_holding {call : Call} {data len : Nat} (h : call = .holding data len) :
    call.free = true := by
  rw [h]
  rfl

theorem Call.ready_or_sleeping {call : Call} {len : Nat} (h : call.pending = some len) :
    call.ready = some len ∨ call.sleeping = true := by
  cases call <;> simp_all [pending, ready, sleeping]

namespace World

variable {c : Layout} {w w' : World c} {a : Operation} {e : Event}

def writeBlocks (w : World c) : Bool := !w.fifo.eos && decide (w.fifo.level = c.bufferSize)

def readBlocks (w : World c) : Bool := !w.fifo.eos && decide (w.fifo.level = 0)

def writeWork (w : World c) : Nat := w.drain.work w.writeBlocks

def readWork (w : World c) : Nat := w.source.work w.readBlocks

section Drain

theorem writeWork_le (w : World c) : w.writeWork ≤ 5 := Call.work_le _ _

theorem writeWork_of_pending {len : Nat} (h : w.drain.pending = some len) : 3 ≤ w.writeWork :=
  Call.work_of_pending h _

theorem writeWork_of_source (hinv : w.Inv) (hside : a.side = .source) (hpos : w.PositiveCommit a)
    (hstep : Step w a e w') : w'.writeWork ≤ w.writeWork := by
  cases hstep with
  | commitRead len hfree hlen =>
    have hlevel := hinv.fifo.level_le
    have hreq := hinv.fifo.rdReq_le_level
    have hlen' : 0 < len := hpos
    have hblocks : w.fifo.level - len ≠ c.bufferSize := by omega
    apply Call.work_notifyIf
    . intro _
      simp [writeBlocks, hblocks]
    . simp [writeBlocks, hblocks]
  | endRead =>
    show (w.drain.notifyIf true).work _ ≤ w.writeWork
    apply Call.work_notifyIf
    . simp [writeBlocks]
    . simp [writeBlocks]
  | requestReadThrows | requestRead | readGranted | readEnded | readSlept | wakeRead | failRead
  | commitReadUnrequested | commitReadTooLarge => exact Nat.le_refl _
  | _ => cases hside

theorem passWrite_work (hinv : w.Inv) (hstep : w.step .passWrite = some (w', .slept)) :
    w'.writeWork + 1 ≤ w.writeWork := by
  cases step_cases hinv hstep with
  | writeSlept len hready heos hlevel =>
    have hblocks : w.writeBlocks = true := by simp [writeBlocks, heos, hlevel]
    have hwork : w.writeWork = 5 := by
      unfold writeWork
      rw [hblocks]
      exact Call.work_of_ready_again hready
    show 4 + 1 ≤ w.writeWork
    omega

theorem wakeWrite_work (hinv : w.Inv) (hstep : w.step .wakeWrite = some (w', e)) :
    w'.writeWork ≤ w.writeWork + 1 := by
  cases step_cases hinv hstep with
  | wakeWrite len hasleep =>
    have hwork : w.writeWork = 4 := by
      unfold writeWork
      rw [hasleep]
      rfl
    have hwork' := Call.work_le (.notified len) w.writeBlocks
    show (Call.notified len).work w.writeBlocks ≤ w.writeWork + 1
    omega

end Drain

section Source

theorem readWork_le (w : World c) : w.readWork ≤ 5 := Call.work_le _ _

theorem readWork_of_pending {len : Nat} (h : w.source.pending = some len) : 3 ≤ w.readWork :=
  Call.work_of_pending h _

theorem readWork_of_drain (hside : a.side = .drain) (hpos : w.PositiveCommit a)
    (hstep : Step w a e w') : w'.readWork ≤ w.readWork := by
  cases hstep with
  | commitWrite len hfree hlen =>
    have hlen' : len ≠ 0 := Nat.ne_of_gt hpos
    apply Call.work_notifyIf
    . intro _
      simp [readBlocks, hlen']
    . simp [readBlocks, hlen']
  | endWrite =>
    show (w.source.notifyIf true).work _ ≤ w.readWork
    apply Call.work_notifyIf
    . simp [readBlocks]
    . simp [readBlocks]
  | requestWriteThrows | requestWrite | writeEnded | writeGranted | writeSlept | wakeWrite | failWrite
  | store | commitWriteUnrequested | commitWriteTooLarge => exact Nat.le_refl _
  | _ => cases hside

theorem passRead_work (hinv : w.Inv) (hstep : w.step .passRead = some (w', .slept)) :
    w'.readWork + 1 ≤ w.readWork := by
  cases step_cases hinv hstep with
  | readSlept len hready hlevel heos =>
    have hblocks : w.readBlocks = true := by simp [readBlocks, heos, hlevel]
    have hwork : w.readWork = 5 := by
      unfold readWork
      rw [hblocks]
      exact Call.work_of_ready_again hready
    show 4 + 1 ≤ w.readWork
    omega

theorem wakeRead_work (hinv : w.Inv) (hstep : w.step .wakeRead = some (w', e)) :
    w'.readWork ≤ w.readWork + 1 := by
  cases step_cases hinv hstep with
  | wakeRead len hasleep =>
    have hwork : w.readWork = 4 := by
      unfold readWork
      rw [hasleep]
      rfl
    have hwork' := Call.work_le (.notified len) w.readBlocks
    show (Call.notified len).work w.readBlocks ≤ w.readWork + 1
    omega

end Source

end World
