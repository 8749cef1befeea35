import Buffer2.Machine.Potential
import Buffer2.Fifo.Content
import Buffer2.Fifo.Wakeup
import Buffer2.Fifo.Woken

/-!
This module contains the statistics of a `StaticFIFO`, which count how often the buffer has been full and
how often it has been empty, and the bounds that the water marks give for them.
-/

namespace World

variable {c : Layout} {w w' : World c} {a : Operation} {e : Event} {tr : List (Operation × Event)}

def isFull (x : Operation × Event) : Bool := x.1 = .passWrite && x.2 = .slept

def isEmpty (x : Operation × Event) : Bool := x.1 = .passRead && x.2 = .slept

theorem counts_of_step (hstep : Step w a e w') :
    w'.fifo.fullCount = w.fifo.fullCount + UInt32.ofNat (if isFull (a, e) then 1 else 0) ∧
      w'.fifo.emptyCount = w.fifo.emptyCount + UInt32.ofNat (if isEmpty (a, e) then 1 else 0) := by
  cases hstep <;> simp [isFull, isEmpty]

theorem counts_of_runs {G : World c → Operation → Prop} (hruns : (machine c).Runs G (init c) tr w) :
    w.fifo.fullCount = UInt32.ofNat (tr.countP isFull) ∧
      w.fifo.emptyCount = UInt32.ofNat (tr.countP isEmpty) := by
  apply (inv_init c).history (I := fun tr w => w.fifo.fullCount = UInt32.ofNat (tr.countP isFull) ∧
    w.fifo.emptyCount = UInt32.ofNat (tr.countP isEmpty)) hruns
  . intro tr w a w' e _ ih _ hstep
    have hcounts := counts_of_step hstep
    simp only [List.countP_append, List.countP_singleton, UInt32.ofNat_add, ← ih.1, ← ih.2]
    exact hcounts
  . exact ⟨rfl, rfl⟩

/--
The space that is free at least when the writer is notified, and the bytes that are there at least when
the reader is.
-/
def freed (c : Layout) : Nat := c.bufferSize - min c.lowWaterMark (c.bufferSize - 1)

def filled (c : Layout) : Nat := max c.highWaterMark 1

def disturbsWriter (x : Operation × Event) : Bool := x.1 = .wakeWrite || x.1 = .failWrite

def disturbsReader (x : Operation × Event) : Bool := x.1 = .wakeRead || x.1 = .failRead

def writtenLength (x : Operation × Event) : Nat := (written [x]).length

def takenLength (x : Operation × Event) : Nat := (taken [x]).length

/--
How far the level is above the mark at which the writer is notified. A writer that is asleep has used this
up, and one that sees the end of the stream does not need it any more.
-/
def risen (w : World c) : Nat :=
  if w.fifo.eos = true ∨ w.drain.sleeping = true then 0 else w.fifo.level + freed c - c.bufferSize

def fallen (w : World c) : Nat :=
  if w.fifo.eos = true ∨ w.source.sleeping = true then 0 else filled c - w.fifo.level

theorem Call.not_sleeping_of_ready {call : Call} {len : Nat} (h : call.ready = some len) :
    call.sleeping = false := by
  cases call <;> simp_all [Call.ready, Call.sleeping]

theorem level_of_step (hinv : w.Inv) (hstep : Step w a e w') :
    w'.fifo.level + takenLength (a, e) = w.fifo.level + writtenLength (a, e) := by
  cases hstep with
  | commitWrite len hfree hlen => simp [takenLength, writtenLength, taken, written]
  | commitRead len hfree hlen =>
    have hreq := hinv.fifo.rdReq_le_level
    simp only [takenLength, writtenLength, taken, written, List.flatMap_cons, List.flatMap_nil,
      List.append_nil, Memory.length_slice, StaticFIFO.took_level, List.length_nil]
    omega
  | _ => rfl

theorem takenLength_of_drain (hside : a.side = .drain) (hstep : Step w a e w') :
    takenLength (a, e) = 0 := by
  cases hstep with
  | requestRead | requestReadThrows | readGranted | readEnded | readSlept | wakeRead | failRead
  | commitRead | commitReadUnrequested | commitReadTooLarge | endRead => cases hside
  | _ => rfl

theorem writtenLength_of_source (hside : a.side = .source) (hstep : Step w a e w') :
    writtenLength (a, e) = 0 := by
  cases hstep with
  | requestWrite | requestWriteThrows | writeGranted | writeEnded | writeSlept | wakeWrite | failWrite
  | store | commitWrite | commitWriteUnrequested | commitWriteTooLarge | endWrite => cases hside
  | _ => rfl

section Full

theorem risen_le (hlevel : w.fifo.level ≤ c.bufferSize) : w.risen ≤ freed c := by
  unfold risen
  split <;> omega

theorem risen_of_sleeping (h : w.drain.sleeping = true) : w.risen = 0 := by
  simp [risen, h]

theorem risen_mono {n : Nat} (hlevel : w'.fifo.level ≤ w.fifo.level + n)
    (heos : w.fifo.eos = true → w'.fifo.eos = true)
    (hsleep : w.drain.sleeping = true → w'.fifo.eos = true ∨ w'.drain.sleeping = true ∨
      w'.fifo.level + freed c ≤ c.bufferSize) : w'.risen ≤ w.risen + n := by
  unfold risen
  split
  . omega
  . next hnot =>
    simp only [not_or] at hnot
    split
    . next h =>
      cases h with
      | inl h => exact absurd (heos h) hnot.1
      | inr h =>
        have := ((hsleep h).resolve_left hnot.1).resolve_left hnot.2
        omega
    . omega

theorem covers_full (hinv : w.Inv) (hpos : w.PositiveCommit a) (hstep : Step w a e w') :
    (if isFull (a, e) then freed c else 0) + w'.risen ≤
      w.risen + (writtenLength (a, e) + if disturbsWriter (a, e) then freed c else 0) := by
  have hquiet : isFull (a, e) = false → w'.risen ≤ w.risen + writtenLength (a, e) →
      (if isFull (a, e) then freed c else 0) + w'.risen ≤
        w.risen + (writtenLength (a, e) + if disturbsWriter (a, e) then freed c else 0) := by
    intro hfull hrisen
    rw [hfull, if_neg Bool.false_ne_true]
    omega
  have hdisturbed : isFull (a, e) = false → disturbsWriter (a, e) = true →
      (if isFull (a, e) then freed c else 0) + w'.risen ≤
        w.risen + (writtenLength (a, e) + if disturbsWriter (a, e) then freed c else 0) := by
    intro hfull hdisturbs
    have hrisen := risen_le (hinv.of_step hstep).fifo.level_le
    rw [hfull, hdisturbs, if_neg Bool.false_ne_true, if_pos rfl]
    omega
  cases hstep with
  | requestWriteThrows | commitWriteUnrequested | commitWriteTooLarge | requestReadThrows | requestRead
  | readGranted | readEnded | readSlept | wakeRead | failRead | commitReadUnrequested
  | commitReadTooLarge => exact hquiet rfl (risen_mono (Nat.le_add_right _ _) id fun h => .inr (.inl h))
  | requestWrite len hfree | store addr b hfree =>
    refine hquiet rfl (risen_mono (Nat.le_add_right _ _) id ?_)
    simp [Call.not_sleeping_of_free hfree]
  | writeEnded len hready heos => exact hquiet rfl (risen_mono (Nat.le_add_right _ _) id fun _ => .inl heos)
  | writeGranted len hready =>
    refine hquiet rfl (risen_mono (Nat.le_add_right _ _) id ?_)
    simp [Call.not_sleeping_of_ready hready]
  | writeSlept len hready heos hfull =>
    have hrisen : w.risen = freed c := by
      simp [risen, heos, Call.not_sleeping_of_ready hready, hfull]
    rw [risen_of_sleeping rfl, hrisen]
    simp [isFull]
  | wakeWrite | failWrite => exact hdisturbed rfl rfl
  | commitWrite len hfree hlen =>
    refine hquiet rfl (risen_mono ?_ id ?_)
    . simp [writtenLength, written]
    . simp [Call.not_sleeping_of_free hfree]
  | endWrite hfree => exact hquiet rfl (risen_mono (Nat.le_add_right _ _) (fun _ => rfl) fun _ => .inl rfl)
  | commitRead len hfree hlen =>
    have hlevel := hinv.fifo.level_le
    have hreq := hinv.fifo.rdReq_le_level
    have hpositive : 0 < len := hpos
    refine hquiet rfl (risen_mono ?_ id fun hsleep => .inr ?_)
    . show w.fifo.level - len ≤ _
      omega
    . by_cases hlow : w.fifo.level - len ≤ c.lowWaterMark
      . right
        show w.fifo.level - len + freed c ≤ c.bufferSize
        unfold freed
        omega
      . left
        rw [Call.sleeping_notifyIf]
        exact ⟨hsleep, decide_eq_false hlow⟩
  | endRead hfree => exact hquiet rfl (risen_mono (Nat.le_add_right _ _) (fun _ => rfl) fun _ => .inl rfl)

end Full

section Empty

theorem fallen_le (w : World c) : w.fallen ≤ filled c := by
  unfold fallen
  split <;> omega

theorem fallen_of_sleeping (h : w.source.sleeping = true) : w.fallen = 0 := by
  simp [fallen, h]

theorem fallen_mono {n : Nat} (hlevel : w.fifo.level ≤ w'.fifo.level + n)
    (heos : w.fifo.eos = true → w'.fifo.eos = true)
    (hsleep : w.source.sleeping = true → w'.fifo.eos = true ∨ w'.source.sleeping = true ∨
      filled c ≤ w'.fifo.level) : w'.fallen ≤ w.fallen + n := by
  unfold fallen
  split
  . omega
  . next hnot =>
    simp only [not_or] at hnot
    split
    . next h =>
      cases h with
      | inl h => exact absurd (heos h) hnot.1
      | inr h =>
        have := ((hsleep h).resolve_left hnot.1).resolve_left hnot.2
        omega
    . omega

theorem covers_empty (hinv : w.Inv) (hpos : w.PositiveCommit a) (hstep : Step w a e w') :
    (if isEmpty (a, e) then filled c else 0) + w'.fallen ≤
      w.fallen + (takenLength (a, e) + if disturbsReader (a, e) then filled c else 0) := by
  have hquiet : isEmpty (a, e) = false → w'.fallen ≤ w.fallen + takenLength (a, e) →
      (if isEmpty (a, e) then filled c else 0) + w'.fallen ≤
        w.fallen + (takenLength (a, e) + if disturbsReader (a, e) then filled c else 0) := by
    intro hempty hfallen
    rw [hempty, if_neg Bool.false_ne_true]
    omega
  have hdisturbed : isEmpty (a, e) = false → disturbsReader (a, e) = true →
      (if isEmpty (a, e) then filled c else 0) + w'.fallen ≤
        w.fallen + (takenLength (a, e) + if disturbsReader (a, e) then filled c else 0) := by
    intro hempty hdisturbs
    have hfallen := fallen_le w'
    rw [hempty, hdisturbs, if_neg Bool.false_ne_true, if_pos rfl]
    omega
  cases hstep with
  | requestWriteThrows | commitWriteUnrequested | commitWriteTooLarge | requestReadThrows | requestWrite
  | writeGranted | writeEnded | writeSlept | wakeWrite | failWrite | store | commitReadUnrequested
  | commitReadTooLarge =>
    exact hquiet rfl (fallen_mono (Nat.le_add_right _ _) id fun h => .inr (.inl h))
  | requestRead len hfree =>
    refine hquiet rfl (fallen_mono (Nat.le_add_right _ _) id ?_)
    simp [Call.not_sleeping_of_free hfree]
  | readGranted len hready =>
    refine hquiet rfl (fallen_mono (Nat.le_add_right _ _) id ?_)
    simp [Call.not_sleeping_of_ready hready]
  | readEnded len hready hlevel heos =>
    exact hquiet rfl (fallen_mono (Nat.le_add_right _ _) id fun _ => .inl heos)
  | readSlept len hready hlevel heos =>
    have hfallen : w.fallen = filled c := by
      simp [fallen, heos, Call.not_sleeping_of_ready hready, hlevel]
    rw [fallen_of_sleeping rfl, hfallen]
    simp [isEmpty]
  | wakeRead | failRead => exact hdisturbed rfl rfl
  | commitWrite len hfree hlen =>
    have hpositive : 0 < len := hpos
    refine hquiet rfl (fallen_mono ?_ id fun hsleep => .inr ?_)
    . show w.fifo.level ≤ w.fifo.level + len + _
      omega
    . by_cases hhigh : c.highWaterMark ≤ w.fifo.level + len
      . right
        show filled c ≤ w.fifo.level + len
        unfold filled
        omega
      . left
        rw [Call.sleeping_notifyIf]
        exact ⟨hsleep, decide_eq_false hhigh⟩
  | endWrite hfree => exact hquiet rfl (fallen_mono (Nat.le_add_right _ _) (fun _ => rfl) fun _ => .inl rfl)
  | commitRead len hfree hlen =>
    refine hquiet rfl (fallen_mono ?_ id ?_)
    . rw [level_of_step hinv (.commitRead len hfree hlen)]
      apply Nat.le_add_right
    . simp [Call.not_sleeping_of_free hfree]
  | endRead hfree => exact hquiet rfl (fallen_mono (Nat.le_add_right _ _) (fun _ => rfl) fun _ => .inl rfl)

end Empty

section Runs

theorem total_written (tr : List (Operation × Event)) :
    Machine.total writtenLength tr = (written tr).length := by
  simp only [Machine.total, written, List.length_flatMap]
  congr 1
  simp [writtenLength, written]

theorem total_taken (tr : List (Operation × Event)) :
    Machine.total takenLength tr = (taken tr).length := by
  simp only [Machine.total, taken, List.length_flatMap]
  congr 1
  simp [takenLength, taken]

theorem taken_le_written {G : World c → Operation → Prop} (hruns : (machine c).Runs G (init c) tr w) :
    (taken tr).length ≤ (written tr).length := by
  have hlevel : w.fifo.level + (taken tr).length = (written tr).length := by
    apply (inv_init c).history hruns (I := fun tr w =>
      w.fifo.level + (taken tr).length = (written tr).length)
    . intro tr w a w' e hinv ih _ hstep
      have hone := level_of_step hinv hstep
      rw [taken_append, written_append, List.length_append, List.length_append]
      unfold takenLength writtenLength at hone
      omega
    . rfl
  omega

theorem amortized_full {G : World c → Operation → Prop} (hG : ∀ w a, G w a → w.PositiveCommit a) :
    (machine c).Amortized G Inv risen (fun x => if isFull x then freed c else 0)
      (fun x => writtenLength x + if disturbsWriter x then freed c else 0) where
  invariant _ _ _ _ h _ hstep := h.step hstep
  covered _ _ _ _ h hg hstep := covers_full h (hG _ _ hg) (step_cases h hstep)

theorem amortized_empty {G : World c → Operation → Prop} (hG : ∀ w a, G w a → w.PositiveCommit a) :
    (machine c).Amortized G Inv fallen (fun x => if isEmpty x then filled c else 0)
      (fun x => takenLength x + if disturbsReader x then filled c else 0) where
  invariant _ _ _ _ h _ hstep := h.step hstep
  covered _ _ _ _ h hg hstep := covers_empty h (hG _ _ hg) (step_cases h hstep)

theorem full_le (hruns : (machine c).Runs PositiveCommit (init c) tr w) :
    freed c * tr.countP isFull ≤ (written tr).length + freed c * tr.countP disturbsWriter := by
  have hbound := (amortized_full fun _ _ h => h).runs hruns (inv_init c)
  have hinit : (init c).risen = 0 := by
    simp [risen, init, freed, Call.sleeping]
  rw [Machine.total_add, Machine.total_ite, Machine.total_ite, total_written, hinit] at hbound
  omega

theorem empty_le (hruns : (machine c).Runs PositiveCommit (init c) tr w) :
    filled c * tr.countP isEmpty ≤
      (taken tr).length + filled c + filled c * tr.countP disturbsReader := by
  have hbound := (amortized_empty fun _ _ h => h).runs hruns (inv_init c)
  have hinit := fallen_le (init c)
  rw [Machine.total_add, Machine.total_ite, Machine.total_ite, total_taken] at hbound
  omega

/--
From one time that the buffer is full to the next one, the writer fills what had to become free first.
-/
theorem fullCount_le (hruns : (machine c).Runs PositiveCommit (init c) tr w) :
    freed c * tr.countP isFull ≤ (written tr).length + freed c * tr.countP disturbsWriter ∧
      w.fifo.fullCount = UInt32.ofNat (tr.countP isFull) :=
  ⟨full_le hruns, (counts_of_runs hruns).1⟩

theorem fullCount_le_twoBytes :
    ∃ tr w, (machine .twoBytes).Runs PositiveCommit (init .twoBytes) tr w ∧ w.fifo.fullCount = 1 ∧
      freed .twoBytes * tr.countP isFull ≤
        (written tr).length + freed .twoBytes * tr.countP disturbsWriter := by
  have hruns : (machine .twoBytes).Runs PositiveCommit (init .twoBytes)
      [(.requestWrite 2, .entered), (.passWrite, .granted 4096 2), (.commitWrite 4096 2, .wrote [0, 0]),
        (.requestWrite 1, .entered), (.passWrite, .slept)] _ :=
    .of_exec (by simp [PositiveCommit]) rfl
  exact ⟨_, _, hruns, rfl, (fullCount_le hruns).1⟩

/--
The reader finds the buffer empty once before anything has been written, and after that only when it has
read what had to be there first.
-/
theorem emptyCount_le (hruns : (machine c).Runs PositiveCommit (init c) tr w) :
    filled c * tr.countP isEmpty ≤
        (taken tr).length + filled c + filled c * tr.countP disturbsReader ∧
      w.fifo.emptyCount = UInt32.ofNat (tr.countP isEmpty) :=
  ⟨empty_le hruns, (counts_of_runs hruns).2⟩

theorem emptyCount_le_twoBytes :
    ∃ tr w, (machine .twoBytes).Runs PositiveCommit (init .twoBytes) tr w ∧ w.fifo.emptyCount = 2 ∧
      filled .twoBytes * tr.countP isEmpty ≤
        (taken tr).length + filled .twoBytes + filled .twoBytes * tr.countP disturbsReader := by
  have hruns : (machine .twoBytes).Runs PositiveCommit (init .twoBytes)
      [(.requestRead 2, .entered), (.passRead, .slept), (.requestWrite 2, .entered),
        (.passWrite, .granted 4096 2), (.commitWrite 4096 2, .wrote [0, 0]),
        (.passRead, .granted 4096 2), (.commitRead 4096 2, .took [0, 0]), (.requestRead 2, .entered),
        (.passRead, .slept)] _ :=
    .of_exec (by simp [PositiveCommit]) rfl
  exact ⟨_, _, hruns, rfl, (emptyCount_le hruns).1⟩

end Runs

end World
