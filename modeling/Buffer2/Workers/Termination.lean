import Buffer2.Machine.Potential
import Buffer2.Workers.WaitFailure
import Buffer2.Workers.Work

/-!
This module contains the proof that a transfer comes to its end: the two workers are never stuck, and
they can only make as many steps as there are bytes to copy.
-/

namespace Workers

variable {c : Layout} {requestSize : Nat}

structure Live (requestSize : Nat) (w : World c) (p : InputWorker) (q : OutputWorker) : Prop where
  inv : Inv requestSize w p q
  sleep : w.Sleep
  input : p.Ready w
  output : q.Ready w

def work (w : World c) (p : InputWorker) (q : OutputWorker) : Nat :=
  p.work w + q.work (p.rest + w.fifo.level) w

theorem live_init (c : Layout) (requestSize : Nat) (stream : List UInt8) :
    Live requestSize (init c stream).shared (init c stream).left (init c stream).right where
  inv := inv_init c requestSize stream
  sleep := World.sleep_init c
  input := trivial
  output := trivial

theorem work_init (c : Layout) (stream : List UInt8) :
    work (init c stream).shared (init c stream).left (init c stream).right =
      14 * stream.length + 14 := by
  show 7 * stream.length + 7 + (7 * (stream.length + 0 + 0) + 7) = 14 * stream.length + 14
  omega

section Step

variable {w w' : World c} {p p' : InputWorker} {q q' : OutputWorker} {x : Choice}
variable {l : Option (Operation × Event)}

theorem live_input (hsize : 0 < requestSize) (h : Live requestSize w p q)
    (hinv' : Inv requestSize w' p' q)
    (hprogram : Machine.ProgramStep (World.machine c) (fun w => w.fifo.buffer)
      { move := fun _ => InputWorker.move requestSize } w p x w' p' l) :
    Live requestSize w' p' q ∧ 1 + work w' p' q ≤ work w p q + wakeCredit x := by
  cases hprogram with
  | own hmove =>
    have hdone := inputDone_own h.inv h.input hmove
    have hother := OutputWorker.work_mono (q := q) hdone.rest (Nat.le_refl w.readWork)
    refine ⟨⟨hinv', h.sleep, hdone.ready, h.output⟩, ?_⟩
    have := hdone.work
    unfold work
    omega
  | call hmove hcall =>
    obtain ⟨hdone, hside, hpos⟩ := inputDone_call hsize h.inv h.input hmove hcall
    have hstep := World.step_cases h.inv.world hcall
    have hother := OutputWorker.work_mono (q := q) hdone.rest (World.readWork_of_drain hside hpos hstep)
    obtain ⟨notify, hsource⟩ := World.source_frame h.inv.world hside hcall
    have hframe := h.output.frame hsource fun heos => (World.eos_step hstep).mpr (.inl heos)
    refine ⟨⟨hinv', h.sleep.of_step hstep, hdone.ready, hframe⟩, ?_⟩
    have := hdone.work
    unfold work
    omega

theorem live_output (hsize : 0 < requestSize) (h : Live requestSize w p q)
    (hinv' : Inv requestSize w' p q')
    (hprogram : Machine.ProgramStep (World.machine c) (fun w => w.fifo.buffer)
      { move := OutputWorker.move requestSize } w q x w' q' l) :
    Live requestSize w' p q' ∧ 1 + work w' p q' ≤ work w p q + wakeCredit x := by
  cases hprogram with
  | own hmove =>
    have hdone := outputDone_own h.inv h.output hmove
    refine ⟨⟨hinv', h.sleep, h.input, hdone.ready⟩, ?_⟩
    have := hdone.work p.rest
    unfold work
    omega
  | call hmove hcall =>
    obtain ⟨hdone, hside, hpos⟩ := outputDone_call hsize h.inv h.output hmove hcall
    have hstep := World.step_cases h.inv.world hcall
    have hother := InputWorker.work_mono (p := p)
      (World.writeWork_of_source h.inv.world hside hpos hstep)
    obtain ⟨⟨notify, hdrain⟩, _⟩ := World.drain_frame h.inv.world hside hcall
    have hframe := h.input.frame hdrain fun heos => (World.eos_step hstep).mpr (.inl heos)
    refine ⟨⟨hinv', h.sleep.of_step hstep, hframe, hdone.ready⟩, ?_⟩
    have := hdone.work p.rest
    unfold work
    omega

end Step

section Enabled

variable {w : World c} {p : InputWorker} {q : OutputWorker}

theorem input_enabled (h : Live requestSize w p q) (hawake : w.drain.sleeping = false)
    (hpos : p.pos ≠ .done) :
    ∃ x, (x = .run ∨ x = .byte) ∧ ((World.machine c).programStep (fun w => w.fifo.buffer)
      { move := fun _ => InputWorker.move requestSize } w p x).isSome = true := by
  have hin := h.inv.input
  have hready := h.input
  cases hcase : p.pos with
  | initializing => exact ⟨.run, .inl rfl, by simp [Machine.programStep, InputWorker.move, hcase]⟩
  | request =>
    simp only [InputWorker.Holds, hcase] at hin
    refine ⟨.run, .inl rfl, ?_⟩
    simp [Machine.programStep, InputWorker.move, hcase, World.machine, World.step, hin.2, Call.free]
  | requesting =>
    simp only [InputWorker.Holds, hcase] at hin
    have hcall := (Call.ready_or_sleeping hin.2).resolve_right (by simp [hawake])
    refine ⟨.run, .inl rfl, ?_⟩
    simp [Machine.programStep, InputWorker.move, hcase, World.machine, World.step, hcall]
  | reading buf len n =>
    simp only [InputWorker.Holds, hcase] at hin
    simp only [InputWorker.Ready, hcase] at hready
    have hfree := Call.free_of_holding hin.2.1
    by_cases hn : n = 0
    . subst hn
      cases hstream : p.stream with
      | nil => exact ⟨.run, .inl rfl, by simp [Machine.programStep, InputWorker.move, hcase, hstream]⟩
      | cons b stream =>
        refine ⟨.byte, .inr rfl, ?_⟩
        simp [Machine.programStep, InputWorker.move, hcase, hstream, hready.1, World.machine, World.step,
          hfree]
    . exact ⟨.run, .inl rfl, by simp [Machine.programStep, InputWorker.move, hcase, hn]⟩
  | commit buf n =>
    simp only [InputWorker.Holds, hcase] at hin
    obtain ⟨_, len, hholding, _⟩ := hin
    have hfree := Call.free_of_holding hholding
    refine ⟨.run, .inl rfl, ?_⟩
    simp [Machine.programStep, InputWorker.move, hcase, World.machine, World.step, hfree]
  | endWrite =>
    simp only [InputWorker.Ready, hcase] at hready
    refine ⟨.run, .inl rfl, ?_⟩
    simp [Machine.programStep, InputWorker.move, hcase, World.machine, World.step, hready]
  | done => exact absurd hcase hpos

theorem output_enabled (h : Live requestSize w p q) (hawake : w.source.sleeping = false)
    (hpos : q.pos ≠ .done) :
    ∃ x, (x = .run ∧ (∀ buf len, q.pos ≠ .writing buf len []) ∨ x = .byte) ∧
      ((World.machine c).programStep (fun w => w.fifo.buffer)
        { move := OutputWorker.move requestSize } w q x).isSome = true := by
  have hout := h.inv.output
  have hready := h.output
  cases hcase : q.pos with
  | initializing =>
    exact ⟨.run, .inl ⟨rfl, by simp⟩, by simp [Machine.programStep, OutputWorker.move, hcase]⟩
  | request =>
    simp only [OutputWorker.Holds, hcase] at hout
    refine ⟨.run, .inl ⟨rfl, by simp⟩, ?_⟩
    simp [Machine.programStep, OutputWorker.move, hcase, World.machine, World.step, hout.2, Call.free]
  | requesting =>
    simp only [OutputWorker.Holds, hcase] at hout
    have hcall := (Call.ready_or_sleeping hout.2).resolve_right (by simp [hawake])
    refine ⟨.run, .inl ⟨rfl, by simp⟩, ?_⟩
    simp [Machine.programStep, OutputWorker.move, hcase, World.machine, World.step, hcall]
  | writing buf len bytes =>
    simp only [OutputWorker.Ready, hcase] at hready
    cases bytes with
    | nil =>
      refine ⟨.byte, .inr rfl, ?_⟩
      simp [Machine.programStep, OutputWorker.move, hcase, hready]
    | cons b bytes =>
      exact ⟨.run, .inl ⟨rfl, by simp⟩, by simp [Machine.programStep, OutputWorker.move, hcase]⟩
  | commit buf n =>
    simp only [OutputWorker.Holds, hcase] at hout
    obtain ⟨_, len, hholding, _⟩ := hout
    have hfree := Call.free_of_holding hholding
    refine ⟨.run, .inl ⟨rfl, by simp⟩, ?_⟩
    simp [Machine.programStep, OutputWorker.move, hcase, World.machine, World.step, hfree]
  | endRead =>
    simp only [OutputWorker.Ready, hcase] at hready
    refine ⟨.run, .inl ⟨rfl, by simp⟩, ?_⟩
    simp [Machine.programStep, OutputWorker.move, hcase, World.machine, World.step, hready]
  | done => exact absurd hcase hpos

end Enabled

section System

variable {stream : List UInt8} {s s' : Workers c} {x : Choice ⊕ Choice}
variable {l : Option (Operation × Event)} {tr : List ((Choice ⊕ Choice) × Option (Operation × Event))}

def Proper (s : Workers c) (x : Choice ⊕ Choice) : Prop :=
  s.NoError x ∧ (choice x = .run ∨ choice x = .byte)

def wakeUps (tr : List ((Choice ⊕ Choice) × Option (Operation × Event))) : Nat :=
  tr.countP fun x => choice x.1 = .wake

theorem total_wakeCredit (tr : List ((Choice ⊕ Choice) × Option (Operation × Event))) :
    Machine.total (fun x => wakeCredit (choice x.1)) tr = 2 * wakeUps tr := by
  induction tr with
  | nil => rfl
  | cons x tr ih =>
    rw [Machine.total_cons, ih, wakeUps, wakeUps, List.countP_cons]
    by_cases hx : choice x.1 = .wake
    . simp only [wakeCredit, hx, ↓reduceIte, decide_true]
      omega
    . simp [wakeCredit, hx]

theorem inv_step (hsize : 0 < requestSize) (h : Inv requestSize s.shared s.left s.right)
    (hstep : (machine c requestSize).step s x = some (s', l)) :
    Inv requestSize s'.shared s'.left s'.right := by
  by_cases hx : choice x = .throws .interrupt
  . cases x with
    | inl x =>
      obtain rfl : x = .throws .interrupt := hx
      obtain ⟨hprogram, hright⟩ := Machine.compose_inl hstep
      rw [hright]
      generalize s'.shared = w', s'.left = p' at hprogram
      cases hprogram with
      | own hmove =>
        cases InputWorker.move_cases hmove with
        | initializeThrew | readThrew => exact ⟨h.world, trivial, h.output⟩
      | call hmove => cases InputWorker.move_cases hmove
    | inr x =>
      obtain rfl : x = .throws .interrupt := hx
      obtain ⟨hprogram, hleft⟩ := Machine.compose_inr hstep
      rw [hleft]
      generalize s'.shared = w', s'.right = q' at hprogram
      cases hprogram with
      | own hmove =>
        cases OutputWorker.move_cases hmove with
        | initializeThrew | writeThrew => exact ⟨h.world, h.input, trivial⟩
      | call hmove => cases OutputWorker.move_cases hmove
  . exact (follows hsize h hx hstep).1

theorem live_step (hsize : 0 < requestSize) (h : Live requestSize s.shared s.left s.right)
    (hstep : (machine c requestSize).step s x = some (s', l)) :
    Live requestSize s'.shared s'.left s'.right ∧
      1 + work s'.shared s'.left s'.right ≤
        work s.shared s.left s.right + wakeCredit (choice x) := by
  have hinv' := inv_step hsize h.inv hstep
  cases x with
  | inl x =>
    obtain ⟨hprogram, hright⟩ := Machine.compose_inl hstep
    rw [hright] at hinv' ⊢
    exact live_input hsize h hinv' hprogram
  | inr x =>
    obtain ⟨hprogram, hleft⟩ := Machine.compose_inr hstep
    rw [hleft] at hinv' ⊢
    exact live_output hsize h hinv' hprogram

theorem exists_step (h : Live requestSize s.shared s.left s.right) (hfin : ¬ s.Finished) :
    ∃ x s' l, s.Proper x ∧ (machine c requestSize).step s x = some (s', l) := by
  suffices ∃ x, s.Proper x ∧ ((machine c requestSize).step s x).isSome = true by
    obtain ⟨x, hx, hsome⟩ := this
    obtain ⟨⟨s', l⟩, hstep⟩ := Option.isSome_iff_exists.mp hsome
    exact ⟨x, s', l, hx, hstep⟩
  have houtput : s.right.pos ≠ .done → s.shared.source.sleeping = false →
      ∃ x, s.Proper x ∧ ((machine c requestSize).step s x).isSome = true := by
    intro hright hawake
    obtain ⟨x, hx, hsome⟩ := output_enabled h hawake hright
    refine ⟨.inr x, ?_, Machine.isSome_compose_inr hsome⟩
    cases hx with
    | inl hx =>
      obtain ⟨rfl, hpos⟩ := hx
      exact ⟨⟨by simp [choice], fun _ => hpos⟩, .inl rfl⟩
    | inr hx =>
      subst hx
      exact ⟨⟨by simp [choice], by simp⟩, .inr rfl⟩
  by_cases hleft : s.left.pos = .done
  . -- The input has closed the FIFO, so the output cannot be asleep.
    have heos : s.shared.fifo.eos = true := by
      have hready := h.input
      simpa only [InputWorker.Ready, hleft] using hready
    apply houtput
    . exact fun hright => hfin ⟨hleft, hright⟩
    . by_contra hsleep
      simp [(h.sleep.source (by simpa using hsleep)).1] at heos
  . cases hsleep : s.shared.drain.sleeping with
    | false =>
      obtain ⟨x, hx, hsome⟩ := input_enabled h hsleep hleft
      refine ⟨.inl x, ?_, Machine.isSome_compose_inl hsome⟩
      obtain rfl | rfl := hx
      . exact ⟨⟨by simp [choice], by simp⟩, .inl rfl⟩
      . exact ⟨⟨by simp [choice], by simp⟩, .inr rfl⟩
    | true =>
      apply houtput
      . intro hright
        have hready := h.output
        simp only [OutputWorker.Ready, hright, (h.sleep.drain hsleep).1] at hready
        cases hready
      . by_contra hsource
        exact h.sleep.not_both ⟨by simpa using hsource, hsleep⟩

theorem step_of_finished (h : s.Finished) : (machine c requestSize).step s x = none := by
  obtain ⟨hleft, hright⟩ := h
  cases x with
  | inl x => simp [machine, Machine.compose, Machine.programStep, InputWorker.move, hleft]
  | inr x => simp [machine, Machine.compose, Machine.programStep, OutputWorker.move, hright]

theorem amortized (hsize : 0 < requestSize) (G : Workers c → Choice ⊕ Choice → Prop) :
    (machine c requestSize).Amortized G (fun s => Live requestSize s.shared s.left s.right)
      (fun s => work s.shared s.left s.right) (fun _ => 1) (fun x => wakeCredit (choice x.1)) where
  invariant _ _ _ _ h _ hstep := (live_step hsize h hstep).1
  covered _ _ _ _ h _ hstep := (live_step hsize h hstep).2

theorem amortized_proper (hsize : 0 < requestSize) :
    (machine c requestSize).Amortized Proper (fun s => Live requestSize s.shared s.left s.right)
      (fun s => work s.shared s.left s.right) (fun _ => 1) (fun _ => 0) where
  invariant _ _ _ _ h _ hstep := (live_step hsize h hstep).1
  covered s x s' l h hproper hstep := by
    have hone := (live_step hsize h hstep).2
    have hnowake : wakeCredit (choice x) = 0 := by
      unfold wakeCredit
      obtain hx | hx := hproper.2 <;> simp [hx]
    rw [hnowake] at hone
    exact hone

theorem terminates (hsize : 0 < requestSize)
    (hruns : (machine c requestSize).Runs Machine.always (init c stream) tr s) :
    tr.length ≤ 14 * stream.length + 14 + 2 * wakeUps tr ∧
      (¬ s.Finished → ∃ x s' l, s.Proper x ∧ (machine c requestSize).step s x = some (s', l)) ∧
      ∃ tr' s', (machine c requestSize).Runs Proper s tr' s' ∧ s'.Finished := by
  have hlive : Live requestSize s.shared s.left s.right := by
    apply hruns.invariant (I := fun s => Live requestSize s.shared s.left s.right)
    . intro s x s' l h _ hstep
      exact (live_step hsize h hstep).1
    . exact live_init c requestSize stream
  refine ⟨?_, exists_step hlive, ?_⟩
  . have hbound := (amortized hsize Machine.always).runs hruns (live_init c requestSize stream)
    rw [Machine.total_one, total_wakeCredit] at hbound
    have := work_init c stream
    omega
  . apply (amortized_proper hsize).exists_final
    . intro s h hfin
      exact exists_step h hfin
    . exact hlive

theorem terminates_oneByte :
    ∃ tr s, (machine .oneByte 1).Runs Machine.always (init .oneByte [7]) tr s ∧
      s.shared.source = .asleep 1 ∧ tr.length ≤ 28 ∧
      ∃ tr' s', (machine .oneByte 1).Runs Proper s tr' s' ∧ s'.Finished := by
  have hruns : (machine .oneByte 1).Runs Machine.always (init .oneByte [7])
      [(.inr .run, none), (.inr .run, some (.requestRead 1, .entered)),
        (.inr .run, some (.passRead, .slept))] _ :=
    .of_exec (fun _ _ _ => trivial) rfl
  have hterm := terminates Nat.one_pos hruns
  exact ⟨_, _, hruns, rfl, hterm.1, hterm.2.2⟩

def Undisturbed (s : Workers c) (x : Choice ⊕ Choice) : Prop := s.NoError x ∧ choice x ≠ .waitFails

theorem transfer_of_maximal (hsize : 0 < requestSize)
    (hruns : (machine c requestSize).Runs Undisturbed (init c stream) tr s)
    (hmax : ∀ x, s.Proper x → (machine c requestSize).step s x = none) :
    s.Finished ∧ s.exitValue = 0 ∧ s.left.stream = [] ∧ s.right.accepted = stream := by
  have hlive : Live requestSize s.shared s.left s.right := by
    apply hruns.invariant (I := fun s => Live requestSize s.shared s.left s.right)
    . intro s x s' l h _ hstep
      exact (live_step hsize h hstep).1
    . exact live_init c requestSize stream
  have hfin : s.Finished := by
    by_contra hfin
    obtain ⟨x, s', l, hproper, hstep⟩ := exists_step hlive hfin
    rw [hmax x hproper] at hstep
    cases hstep
  have hexit := exitValue_of_runs hsize (hruns.mono fun _ _ h => h.1)
  have hharm : (machine c requestSize).Runs Harmless (init c stream) tr s :=
    hruns.mono fun s x h => ⟨nothingLeft_of_not_waitFails h.2, h.1.1 _⟩
  have haccepted := accepted_eq_stream hsize hharm hfin hexit
  refine ⟨hfin, hexit, ?_, haccepted⟩
  obtain ⟨tr', hpipeline⟩ := runs_pipeline hsize hharm
  obtain ⟨hinv, _⟩ := Pipeline.complete_of_runs hpipeline
  obtain ⟨rest, hrest⟩ := hinv.accepted_prefix
  have hsplit := hinv.delivered_append_stream
  rw [← hrest, show s.pipeline.accepted = stream from haccepted, List.append_assoc] at hsplit
  exact (List.append_eq_nil_iff.mp (List.append_right_eq_self.mp hsplit)).2

theorem transfer_of_maximal_oneByte :
    ∃ tr s, (machine .oneByte 1).Runs Undisturbed (init .oneByte [7]) tr s ∧
      (∀ x, s.Proper x → (machine .oneByte 1).step s x = none) ∧ s.right.accepted = [7] := by
  have hruns : (machine .oneByte 1).Runs Undisturbed (init .oneByte [7])
      [(.inr .run, none), (.inr .run, some (.requestRead 1, .entered)),
        (.inr .run, some (.passRead, .slept)), (.inl .run, none),
        (.inl .run, some (.requestWrite 1, .entered)),
        (.inl .run, some (.passWrite, .granted 4096 1)), (.inl .byte, some (.store 4096 7, .stored)),
        (.inl .run, none), (.inl .run, some (.commitWrite 4096 1, .wrote [7])),
        (.inr .run, some (.passRead, .granted 4096 1)), (.inr .byte, none), (.inr .run, none),
        (.inr .run, some (.commitRead 4096 1, .took [7])),
        (.inl .run, some (.requestWrite 1, .entered)),
        (.inl .run, some (.passWrite, .granted 4096 1)), (.inl .run, none),
        (.inl .run, some (.endWrite, .closed)), (.inr .run, some (.requestRead 1, .entered)),
        (.inr .run, some (.passRead, .ended)), (.inr .run, some (.endRead, .closed))] _ :=
    .cons ⟨⟨nofun, nofun⟩, nofun⟩ rfl <|
    .cons ⟨⟨nofun, nofun⟩, nofun⟩ rfl <|
    .cons ⟨⟨nofun, nofun⟩, nofun⟩ rfl <|
    .cons ⟨⟨nofun, nofun⟩, nofun⟩ rfl <|
    .cons ⟨⟨nofun, nofun⟩, nofun⟩ rfl <|
    .cons ⟨⟨nofun, nofun⟩, nofun⟩ rfl <|
    .cons ⟨⟨nofun, nofun⟩, nofun⟩ rfl <|
    .cons ⟨⟨nofun, nofun⟩, nofun⟩ rfl <|
    .cons ⟨⟨nofun, nofun⟩, nofun⟩ rfl <|
    .cons ⟨⟨nofun, nofun⟩, nofun⟩ rfl <|
    .cons ⟨⟨nofun, nofun⟩, nofun⟩ rfl <|
    .cons ⟨⟨nofun, nofun⟩, nofun⟩ rfl <|
    .cons ⟨⟨nofun, nofun⟩, nofun⟩ rfl <|
    .cons ⟨⟨nofun, nofun⟩, nofun⟩ rfl <|
    .cons ⟨⟨nofun, nofun⟩, nofun⟩ rfl <|
    .cons ⟨⟨nofun, nofun⟩, nofun⟩ rfl <|
    .cons ⟨⟨nofun, nofun⟩, nofun⟩ rfl <|
    .cons ⟨⟨nofun, nofun⟩, nofun⟩ rfl <|
    .cons ⟨⟨nofun, nofun⟩, nofun⟩ rfl <|
    .cons ⟨⟨nofun, nofun⟩, nofun⟩ rfl <|
    .nil _
  have hend := transfer_of_maximal Nat.one_pos hruns fun x _ => step_of_finished ⟨rfl, rfl⟩
  exact ⟨_, _, hruns, fun x _ => step_of_finished ⟨rfl, rfl⟩, hend.2.2.2⟩

end System

end Workers
