import Buffer2.Fifo.Steps

/-!
This module contains the proof that nobody sleeps for good, although the threads are only notified
when the level crosses a water mark.
-/

def Call.sleeping : Call → Bool
  | .asleep _ => true
  | _ => false

@[simp]
theorem Call.sleeping_notifyAll (call : Call) : call.notifyAll.sleeping = false := by
  cases call <;> rfl

theorem Call.sleeping_notifyIf {notify : Bool} {call : Call} :
    (call.notifyIf notify).sleeping = true ↔ call.sleeping = true ∧ notify = false := by
  cases notify <;> simp [notifyIf]

theorem Call.not_sleeping_of_free {call : Call} (h : call.free = true) : call.sleeping = false := by
  cases call <;> simp_all [free, sleeping]

namespace World

variable {c : Layout}

section EndOfStream

variable {w w' : World c} {a : Operation} {e : Event} {tr : List (Operation × Event)}

theorem eos_step (hstep : Step w a e w') :
    w'.fifo.eos = true ↔ w.fifo.eos = true ∨ a = .endWrite ∨ a = .endRead := by
  cases hstep <;> simp

theorem eos_iff {G : World c → Operation → Prop} (hruns : (machine c).Runs G (init c) tr w) :
    w.fifo.eos = true ↔ .endWrite ∈ tr.map Prod.fst ∨ .endRead ∈ tr.map Prod.fst := by
  apply (inv_init c).history (I := fun tr w => w.fifo.eos = true ↔
    .endWrite ∈ tr.map Prod.fst ∨ .endRead ∈ tr.map Prod.fst) hruns
  . intro tr w a w' e _ ih _ hstep
    rw [eos_step hstep, ih]
    simp only [List.map_append, List.map_cons, List.map_nil, List.mem_append, List.mem_singleton,
      eq_comm (a := a)]
    exact or_or_or_comm
  . simp [init]

end EndOfStream

structure Sleep (w : World c) : Prop where
  source : w.source.sleeping = true →
    w.fifo.eos = false ∧ (w.fifo.level < c.highWaterMark ∨ w.fifo.level = 0)
  drain : w.drain.sleeping = true →
    w.fifo.eos = false ∧ (c.lowWaterMark < w.fifo.level ∨ w.fifo.level = c.bufferSize)
  not_both : ¬ (w.source.sleeping = true ∧ w.drain.sleeping = true)

theorem sleep_init (c : Layout) : (init c).Sleep := by
  constructor <;> simp [init, Call.sleeping]

namespace Sleep

variable {w w' : World c} {a : Operation} {e : Event}

theorem level_lt (h : w.Sleep) (hsleep : w.source.sleeping = true) : w.fifo.level < c.bufferSize := by
  have hhigh := c.high_le
  have hpos := c.size_pos
  have := (h.source hsleep).2
  omega

theorem level_pos (h : w.Sleep) (hsleep : w.drain.sleeping = true) : 0 < w.fifo.level := by
  have hpos := c.size_pos
  have := (h.drain hsleep).2
  omega

theorem of_drain (h : w.Sleep) {fifo : StaticFIFO c} {drain : Call} (hlevel : fifo.level = w.fifo.level)
    (heos : fifo.eos = w.fifo.eos) (hdrain : drain.sleeping = false) :
    World.Sleep { fifo, drain, source := w.source } := by
  constructor
  . intro hsleep
    rw [heos, hlevel]
    exact h.source hsleep
  . intro hsleep
    simp [hdrain] at hsleep
  . simp [hdrain]

theorem of_source (h : w.Sleep) {fifo : StaticFIFO c} {source : Call}
    (hlevel : fifo.level = w.fifo.level) (heos : fifo.eos = w.fifo.eos)
    (hsource : source.sleeping = false) : World.Sleep { fifo, drain := w.drain, source } := by
  constructor
  . intro hsleep
    simp [hsource] at hsleep
  . intro hsleep
    rw [heos, hlevel]
    exact h.drain hsleep
  . simp [hsource]

theorem of_awake {fifo : StaticFIFO c} {drain source : Call} (hdrain : drain.sleeping = false)
    (hsource : source.sleeping = false) : World.Sleep { fifo, drain, source } := by
  constructor <;> simp [hdrain, hsource]

theorem of_step (h : w.Sleep) (hstep : Step w a e w') : w'.Sleep := by
  cases hstep with
  | requestWriteThrows | commitWriteUnrequested | commitWriteTooLarge => exact h
  | requestReadThrows | commitReadUnrequested | commitReadTooLarge => exact h
  | requestWrite | writeEnded | writeGranted | wakeWrite | failWrite => exact h.of_drain rfl rfl rfl
  | requestRead | readGranted | readEnded | wakeRead | failRead => exact h.of_source rfl rfl rfl
  | store addr b hfree => exact h.of_drain rfl rfl (Call.not_sleeping_of_free hfree)
  | writeSlept len hready heos hlevel =>
    -- The reader would sleep on a full buffer.
    have hsource : ¬ w.source.sleeping = true := by
      intro hsleep
      have := h.level_lt hsleep
      omega
    constructor
    . intro hsleep
      exact absurd hsleep hsource
    . intro _
      exact ⟨heos, .inr hlevel⟩
    . exact fun hboth => hsource hboth.1
  | commitWrite len hfree hlen =>
    constructor
    . intro hsleep
      obtain ⟨hsleep, hlevel⟩ := Call.sleeping_notifyIf.mp hsleep
      exact ⟨(h.source hsleep).1, .inl (Nat.lt_of_not_le (of_decide_eq_false hlevel))⟩
    . intro hsleep
      cases hsleep
    . exact fun hboth => Bool.false_ne_true hboth.2
  | endWrite => exact of_awake rfl (by simp)
  | readSlept len hready hlevel heos =>
    -- The writer would sleep on an empty buffer.
    have hdrain : ¬ w.drain.sleeping = true := by
      intro hsleep
      have := h.level_pos hsleep
      omega
    constructor
    . intro _
      exact ⟨heos, .inr hlevel⟩
    . intro hsleep
      exact absurd hsleep hdrain
    . exact fun hboth => hdrain hboth.2
  | commitRead len hfree hlen =>
    constructor
    . intro hsleep
      cases hsleep
    . intro hsleep
      obtain ⟨hsleep, hlevel⟩ := Call.sleeping_notifyIf.mp hsleep
      exact ⟨(h.drain hsleep).1, .inl (Nat.lt_of_not_le (of_decide_eq_false hlevel))⟩
    . exact fun hboth => Bool.false_ne_true hboth.1
  | endRead => exact of_awake (by simp) rfl

theorem runs {G : World c → Operation → Prop} {tr : List (Operation × Event)} (hinv : w.Inv) (h : w.Sleep)
    (hruns : (machine c).Runs G w tr w') : w'.Sleep := by
  apply hinv.invariant hruns
  . intro v a v' e _ hv _ hstep
    exact hv.of_step hstep
  . exact h

end Sleep

theorem no_lost_wakeup {tr : List (Operation × Event)} {w : World c}
    (hruns : (machine c).Runs Machine.always (init c) tr w) :
    ¬ (w.source.sleeping = true ∧ w.drain.sleeping = true) ∧
      (w.source.sleeping = true → .endWrite ∉ tr.map Prod.fst) ∧
      (w.drain.sleeping = true → .endRead ∉ tr.map Prod.fst) ∧
      (w.source.sleeping = true →
        w.fifo.eos = false ∧ w.fifo.level < c.bufferSize ∧
          ∀ len, (w.fifo.requestWritePass len).1 ≠ .wait) ∧
      (w.drain.sleeping = true →
        w.fifo.eos = false ∧ 0 < w.fifo.level ∧ ∀ len, (w.fifo.requestReadPass len).1 ≠ .wait) := by
  have hinv := (inv_init c).runs hruns
  have hsleep := (sleep_init c).runs (inv_init c) hruns
  have heos := eos_iff hruns
  refine ⟨hsleep.not_both, ?_, ?_, ?_, ?_⟩
  . intro hsource hend
    have hnot := (hsleep.source hsource).1
    simp [heos.mpr (.inl hend)] at hnot
  . intro hdrain hend
    have hnot := (hsleep.drain hdrain).1
    simp [heos.mpr (.inr hend)] at hnot
  . intro hsource
    have hnot := (hsleep.source hsource).1
    have hlevel := hsleep.level_lt hsource
    refine ⟨hnot, hlevel, ?_⟩
    intro len
    rw [StaticFIFO.requestWritePass_eq hinv.fifo]
    simp [hnot, hlevel]
  . intro hdrain
    have hlevel := hsleep.level_pos hdrain
    refine ⟨(hsleep.drain hdrain).1, hlevel, ?_⟩
    intro len
    rw [StaticFIFO.requestReadPass_eq hinv.fifo]
    simp [hlevel]

theorem no_lost_wakeup_oneByte :
    ∃ tr w, (machine .oneByte).Runs Machine.always (init .oneByte) tr w ∧ w.source = .asleep 1 ∧
      ∀ len, (w.fifo.requestWritePass len).1 ≠ .wait := by
  have hruns : (machine .oneByte).Runs Machine.always (init .oneByte)
      [(.requestRead 1, .entered), (.passRead, .slept)] _ :=
    .of_exec (fun _ _ _ => trivial) rfl
  exact ⟨_, _, hruns, rfl, ((no_lost_wakeup hruns).2.2.2.1 rfl).2.2⟩

end World
