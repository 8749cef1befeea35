import Buffer2.Fifo.Steps

/-!
This module contains how the FIFO depends on the length of a request, which is only by the minimum of it
and what the buffer allows.
-/

def Call.ask (len : Nat) (call : Call) : Call :=
  match call with
  | .entering _ => .entering len
  | .asleep _ => .asleep len
  | .notified _ => .notified len
  | call => call

def Operation.ask (len : Nat) (a : Operation) : Operation :=
  match a with
  | .requestWrite _ => .requestWrite len
  | .requestRead _ => .requestRead len
  | a => a

theorem StaticFIFO.requestWritePass_large {c : Layout} {f : StaticFIFO c} (h : f.Inv) {len len' : Nat}
    (hlen : c.bufferSize ≤ len) (hlen' : c.bufferSize ≤ len') :
    f.requestWritePass len' = f.requestWritePass len := by
  have hgrant : f.writeGrant len' = f.writeGrant len := by
    unfold writeGrant
    omega
  simp only [requestWritePass_eq h, grantWrite, hgrant]

theorem StaticFIFO.requestReadPass_large {c : Layout} {f : StaticFIFO c} (h : f.Inv) {len len' : Nat}
    (hlen : c.bufferSize ≤ len) (hlen' : c.bufferSize ≤ len') :
    f.requestReadPass len' = f.requestReadPass len := by
  have hgrant : f.readGrant len' = f.readGrant len := by
    have := h.level_le
    unfold readGrant
    omega
  simp only [requestReadPass_eq h, grantRead, hgrant]

namespace Call

variable {len : Nat} {call : Call}

@[simp]
theorem ask_idle : Call.idle.ask len = .idle := rfl

@[simp]
theorem ask_holding (data n : Nat) : (Call.holding data n).ask len = .holding data n := rfl

@[simp]
theorem ask_entering (n : Nat) : (Call.entering n).ask len = .entering len := rfl

@[simp]
theorem ask_asleep (n : Nat) : (Call.asleep n).ask len = .asleep len := rfl

@[simp]
theorem ask_notified (n : Nat) : (Call.notified n).ask len = .notified len := rfl

@[simp]
theorem free_ask : (call.ask len).free = call.free := by
  cases call <;> rfl

@[simp]
theorem ready_ask : (call.ask len).ready = call.ready.map fun _ => len := by
  cases call <;> rfl

@[simp]
theorem waiting_ask : (call.ask len).waiting = call.waiting.map fun _ => len := by
  cases call <;> rfl

@[simp]
theorem ask_notifyIf (notify : Bool) : (call.notifyIf notify).ask len = (call.ask len).notifyIf notify := by
  cases notify <;> cases call <;> rfl

@[simp]
theorem ask_notifyAll : call.notifyAll.ask len = (call.ask len).notifyAll := by
  cases call <;> rfl

end Call

namespace World

variable {c : Layout}

def ask (len : Nat) (w : World c) : World c where
  fifo := w.fifo
  drain := w.drain.ask len
  source := w.source.ask len

/--
The requests that a thread is in are for lengths with `P`.
-/
structure Asking (P : Nat → Prop) (w : World c) : Prop where
  drain (len : Nat) : w.drain.pending = some len → P len
  source (len : Nat) : w.source.pending = some len → P len

def Requests (P : Nat → Prop) (a : Operation) : Prop :=
  match a with
  | .requestWrite len => P len
  | .requestRead len => P len
  | _ => True

variable {w w' : World c} {len : Nat} {a : Operation} {e : Event} {P : Nat → Prop}

theorem asking_init (c : Layout) (P : Nat → Prop) : (init c).Asking P := by
  constructor <;> simp [init, Call.pending]

theorem Asking.of_step (h : w.Asking P) (hrequests : Requests P a) (hstep : Step w a e w') :
    w'.Asking P := by
  obtain ⟨hdrain, hsource⟩ := h
  cases hstep with
  | requestWrite len =>
    refine ⟨?_, hsource⟩
    rintro n ⟨⟩
    exact hrequests
  | requestRead len =>
    refine ⟨hdrain, ?_⟩
    rintro n ⟨⟩
    exact hrequests
  | writeEnded | writeGranted | failWrite => exact ⟨by simp [Call.pending], hsource⟩
  | readEnded | readGranted | failRead => exact ⟨hdrain, by simp [Call.pending]⟩
  | writeSlept len hready => exact ⟨by rwa [Call.pending_of_ready hready] at hdrain, hsource⟩
  | readSlept len hready => exact ⟨hdrain, by rwa [Call.pending_of_ready hready] at hsource⟩
  | wakeWrite len hasleep => exact ⟨by rwa [hasleep] at hdrain, hsource⟩
  | wakeRead len hasleep => exact ⟨hdrain, by rwa [hasleep] at hsource⟩
  | commitWrite | endWrite => exact ⟨by simp [Call.pending], by simpa using hsource⟩
  | commitRead | endRead => exact ⟨by simpa using hdrain, by simp [Call.pending]⟩
  | _ => exact ⟨hdrain, hsource⟩

theorem step_ask (hinv : w.Inv) (hlarge : w.Asking (c.bufferSize ≤ ·)) (hlen : c.bufferSize ≤ len)
    (a : Operation) :
    (w.ask len).step (a.ask len) = (w.step a).map (Prod.map (ask len) id) := by
  cases a with
  | requestWrite n =>
    simp only [step, Operation.ask, ask, Call.free_ask, requestWrite]
    cases w.fifo.requestWriteTest <;> split <;> simp [ask]
  | passWrite =>
    simp only [step, Operation.ask, ask, Call.ready_ask]
    cases hready : w.drain.ready with
    | none => rfl
    | some n =>
      have hn := hlarge.drain n (Call.pending_of_ready hready)
      simp only [Option.map_some, passWrite, StaticFIFO.requestWritePass_large hinv.fifo hn hlen]
      split <;> simp [ask]
  | wakeWrite => cases hdrain : w.drain <;> simp [step, Operation.ask, ask, hdrain]
  | failWrite => cases hdrain : w.drain <;> simp [step, Operation.ask, ask, Call.waiting, hdrain]
  | store addr b =>
    simp only [step, Operation.ask, ask, Call.free_ask]
    split <;> simp [ask]
  | commitWrite data n =>
    simp only [step, Operation.ask, ask, Call.free_ask, commitWrite]
    cases w.fifo.commitWrite data n <;> split <;> simp [ask]
  | endWrite =>
    simp only [step, Operation.ask, ask, Call.free_ask]
    split <;> simp [ask, endWrite]
  | requestRead n =>
    simp only [step, Operation.ask, ask, Call.free_ask, requestRead]
    cases w.fifo.requestReadTest <;> split <;> simp [ask]
  | passRead =>
    simp only [step, Operation.ask, ask, Call.ready_ask]
    cases hready : w.source.ready with
    | none => rfl
    | some n =>
      have hn := hlarge.source n (Call.pending_of_ready hready)
      simp only [Option.map_some, passRead, StaticFIFO.requestReadPass_large hinv.fifo hn hlen]
      split <;> simp [ask]
  | wakeRead => cases hsource : w.source <;> simp [step, Operation.ask, ask, hsource]
  | failRead => cases hsource : w.source <;> simp [step, Operation.ask, ask, Call.waiting, hsource]
  | commitRead data n =>
    simp only [step, Operation.ask, ask, Call.free_ask, commitRead]
    cases w.fifo.commitRead data n <;> split <;> simp [ask]
  | endRead =>
    simp only [step, Operation.ask, ask, Call.free_ask]
    split <;> simp [ask, endRead]

end World
