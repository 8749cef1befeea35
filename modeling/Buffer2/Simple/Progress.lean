import Buffer2.Fifo.Progress
import Buffer2.Machine.Potential
import Buffer2.Simple.Results

/-!
This module contains the proof that the calls of `SimpleDrain::write` and `SimpleSource::read` come to their
end, whatever the lengths of the arrays.
-/

namespace Simple

def wakeCredit (x : CopyChoice) : Nat := if x = .wake then 2 else 0

def scriptWork (lens : List Nat) : Nat := (lens.map fun len => 7 * len + 2).sum

end Simple

namespace SimpleDrain

variable {c : Layout} {w w' : World c} {p p' : SimpleDrain} {x : CopyChoice}

def posWork (p : SimpleDrain) (w : World c) : Nat :=
  match p.pos with
  | .idle => 1
  | .loop => 7 * p.rest.length + 2
  | .requesting => 7 * (p.rest.length - 1) + 3 + w.writeWork
  | .copying _ blen i => 7 * (p.rest.length - blen) + 4 + (blen - i)
  | .commit _ blen => 7 * (p.rest.length - blen) + 3
  | .closed => 0
  | .thrown => 0

def work (p : SimpleDrain) (w : World c) : Nat :=
  p.posWork w + Simple.scriptWork (p.script.map List.length)

theorem work_mono (h : w'.writeWork ≤ w.writeWork) : p.work w' ≤ p.work w := by
  unfold work posWork
  split <;> omega

theorem work_own (hmove : p.write x = some (.own p')) : 1 + p'.work w ≤ p.work w := by
  unfold write at hmove
  split at hmove
  . next hpos =>
    split at hmove
    . cases hmove
    . next src script hscript =>
      cases hmove
      simp only [work, posWork, hpos, hscript, Simple.scriptWork, List.map_cons, List.sum_cons]
      omega
  . next hpos =>
    split at hmove
    . cases hmove
    . cases hmove
      simp only [work, posWork, hpos, ret]
      omega
  . cases hmove
  . cases hmove
  . cases hmove
  . next dst blen i hpos =>
    split at hmove
    . split at hmove <;> cases hmove
    . cases hmove
      simp only [work, posWork, hpos]
      omega
  . cases hmove
  . cases hmove

theorem work_call {a : Operation} {e : Event} {resume : Event → SimpleDrain} (hinv : w.Inv) (h : p.Holds w)
    (hx : x ≠ .waitFails) (hmove : p.write x = some (.call a resume)) (hstep : w.step a = some (w', e)) :
    1 + (resume e).work w' ≤ p.work w + Simple.wakeCredit x ∧ a.side = .drain ∧ w.PositiveCommit a := by
  unfold write at hmove
  split at hmove
  . next hpos =>
    split at hmove
    . next hscript =>
      cases hmove
      refine ⟨?_, rfl, trivial⟩
      simp only [work, posWork, hpos]
      omega
    . cases hmove
  . next hpos =>
    simp only [Holds, hpos] at h
    split at hmove
    . next hlen =>
      cases hmove
      obtain ⟨rfl, _⟩ := World.requestWrite_rule hinv h hstep
      have := World.writeWork_le w'
      refine ⟨?_, rfl, trivial⟩
      simp only [work, posWork, resume, hpos]
      omega
    . cases hmove
  . next hpos =>
    cases hmove
    simp only [Holds, hpos] at h
    obtain ⟨hlen, hpending⟩ := h
    have hwork := World.writeWork_of_pending hpending
    obtain ⟨hrequested, _⟩ := World.passWrite_rule hinv hpending hlen hstep
    refine ⟨?_, rfl, trivial⟩
    cases hrequested with
    | granted dst blen hblen hle =>
      have hresume : p.resume (.granted dst blen) = { p with pos := .copying dst blen 0 } := by
        simp only [resume, Nat.ne_of_gt hblen, ↓reduceIte]
      rw [hresume]
      simp only [work, posWork, hpos]
      omega
    | ended =>
      simp only [work, posWork, resume, ret, hpos]
      omega
    | slept =>
      have hslept := World.passWrite_work hinv hstep
      simp only [work, posWork, resume, hpos]
      omega
  . next hpos =>
    cases hmove
    simp only [Holds, hpos] at h
    have hwork := World.wakeWrite_work hinv hstep
    obtain ⟨rfl, _⟩ := World.wakeWrite_rule hinv h.2 hstep
    refine ⟨?_, rfl, trivial⟩
    simp only [work, posWork, resume, hpos, Simple.wakeCredit, ↓reduceIte]
    omega
  . exact absurd rfl hx
  . next dst blen i hpos =>
    split at hmove
    . split at hmove
      . cases hmove
        refine ⟨?_, rfl, trivial⟩
        simp only [work, posWork, hpos]
        omega
      . cases hmove
    . cases hmove
  . next dst blen hpos =>
    cases hmove
    simp only [Holds, hpos] at h
    obtain ⟨hholding, hblen, hle, _⟩ := h
    obtain ⟨rfl, _⟩ := World.commitWrite_rule hinv hholding (Nat.le_refl _) hstep
    refine ⟨?_, rfl, hblen⟩
    simp only [work, posWork, resumeCommit, hpos, List.length_drop]
    omega
  . cases hmove

theorem enabled (h : p.Holds w) (hawake : w.drain.sleeping = false) (hpos : p.pos ≠ .closed) :
    ((World.machine c).programStep (fun w => w.fifo.buffer) { move := fun _ => SimpleDrain.write } w p
      .run).isSome = true := by
  cases hcase : p.pos with
  | idle =>
    simp only [Holds, hcase] at h
    cases hscript : p.script <;>
      simp [Machine.programStep, write, hcase, hscript, World.machine, World.step, h.2.2, Call.free]
  | loop =>
    simp only [Holds, hcase] at h
    by_cases hlen : p.rest.length ≠ 0
    . simp [Machine.programStep, write, hcase, hlen, World.machine, World.step, h, Call.free]
    . simp [Machine.programStep, write, hcase, hlen]
  | requesting =>
    simp only [Holds, hcase] at h
    have hcall := (Call.ready_or_sleeping h.2).resolve_right (by simp [hawake])
    simp [Machine.programStep, write, hcase, World.machine, World.step, hcall]
  | copying dst blen i =>
    simp only [Holds, hcase] at h
    obtain ⟨hholding, _, hle, _⟩ := h
    have hfree := Call.free_of_holding hholding
    by_cases hlt : i < blen
    . have hsome : i < p.rest.length := by omega
      simp [Machine.programStep, write, hcase, hlt, hsome, World.machine, World.step, hfree]
    . simp [Machine.programStep, write, hcase, hlt]
  | commit dst blen =>
    simp only [Holds, hcase] at h
    have hfree := Call.free_of_holding h.1
    simp [Machine.programStep, write, hcase, World.machine, World.step, hfree]
  | closed => exact absurd hcase hpos
  | thrown => simp [Holds, hcase] at h

end SimpleDrain

namespace SimpleSource

variable {c : Layout} {w w' : World c} {p p' : SimpleSource} {x : CopyChoice}

def posWork (p : SimpleSource) (w : World c) : Nat :=
  match p.pos with
  | .idle => 1
  | .loop => 7 * p.len + 2
  | .requesting => 7 * (p.len - 1) + 3 + w.readWork
  | .copying _ blen bytes => 7 * (p.len - blen) + 4 + (blen - bytes.length)
  | .commit _ blen => 7 * (p.len - blen) + 3
  | .closed => 0
  | .thrown => 0

def work (p : SimpleSource) (w : World c) : Nat := p.posWork w + Simple.scriptWork p.script

theorem work_mono (h : w'.readWork ≤ w.readWork) : p.work w' ≤ p.work w := by
  unfold work posWork
  split <;> omega

theorem work_own (hmove : p.read w.fifo.buffer x = some (.own p')) : 1 + p'.work w ≤ p.work w := by
  unfold read at hmove
  split at hmove
  . next hpos =>
    split at hmove
    . cases hmove
    . next len script hscript =>
      cases hmove
      simp only [work, posWork, hpos, hscript, Simple.scriptWork, List.map_cons, List.sum_cons]
      omega
  . next hpos =>
    split at hmove
    . cases hmove
    . cases hmove
      simp only [work, posWork, hpos, ret]
      omega
  . cases hmove
  . cases hmove
  . cases hmove
  . next src blen bytes hpos =>
    split at hmove
    . cases hmove
      simp only [work, posWork, hpos, List.length_append, List.length_singleton]
      omega
    . cases hmove
      simp only [work, posWork, hpos]
      omega
  . cases hmove
  . cases hmove

theorem work_call {a : Operation} {e : Event} {resume : Event → SimpleSource} (hinv : w.Inv)
    (h : p.Holds w) (hx : x ≠ .waitFails) (hmove : p.read w.fifo.buffer x = some (.call a resume))
    (hstep : w.step a = some (w', e)) :
    1 + (resume e).work w' ≤ p.work w + Simple.wakeCredit x ∧ a.side = .source ∧ w.PositiveCommit a := by
  unfold read at hmove
  split at hmove
  . next hpos =>
    split at hmove
    . cases hmove
      refine ⟨?_, rfl, trivial⟩
      simp only [work, posWork, hpos]
      omega
    . cases hmove
  . next hpos =>
    simp only [Holds, hpos] at h
    split at hmove
    . next hlen =>
      cases hmove
      obtain ⟨rfl, _⟩ := World.requestRead_rule hinv h.2 hstep
      have := World.readWork_le w'
      refine ⟨?_, rfl, trivial⟩
      simp only [work, posWork, resume, hpos]
      omega
    . cases hmove
  . next hpos =>
    cases hmove
    simp only [Holds, hpos] at h
    obtain ⟨_, hlen, hpending⟩ := h
    have hwork := World.readWork_of_pending hpending
    obtain ⟨hrequested, _⟩ := World.passRead_rule hinv hpending hlen hstep
    refine ⟨?_, rfl, trivial⟩
    cases hrequested with
    | granted src blen hblen hle =>
      have hresume : p.resume (.granted src blen) = { p with pos := .copying src blen [] } := by
        simp only [resume, Nat.ne_of_gt hblen, ↓reduceIte]
      rw [hresume]
      simp only [work, posWork, hpos, List.length_nil]
      omega
    | ended =>
      simp only [work, posWork, resume, ret, hpos]
      omega
    | slept =>
      have hslept := World.passRead_work hinv hstep
      simp only [work, posWork, resume, hpos]
      omega
  . next hpos =>
    cases hmove
    simp only [Holds, hpos] at h
    have hwork := World.wakeRead_work hinv hstep
    obtain ⟨rfl, _⟩ := World.wakeRead_rule hinv h.2.2 hstep
    refine ⟨?_, rfl, trivial⟩
    simp only [work, posWork, resume, hpos, Simple.wakeCredit, ↓reduceIte]
    omega
  . exact absurd rfl hx
  . next src blen bytes hpos =>
    split at hmove <;> cases hmove
  . next src blen hpos =>
    cases hmove
    simp only [Holds, hpos] at h
    obtain ⟨_, hholding, hblen, hle⟩ := h
    obtain ⟨rfl, _⟩ := World.commitRead_rule hinv hholding (Nat.le_refl _) hstep
    refine ⟨?_, rfl, hblen⟩
    simp only [work, posWork, resumeCommit, hpos]
    omega
  . cases hmove

theorem enabled (h : p.Holds w) (hawake : w.source.sleeping = false) (hpos : p.pos ≠ .closed) :
    ((World.machine c).programStep (fun w => w.fifo.buffer) { move := SimpleSource.read } w p
      .run).isSome = true := by
  cases hcase : p.pos with
  | idle =>
    simp only [Holds, hcase] at h
    cases hscript : p.script <;>
      simp [Machine.programStep, read, hcase, hscript, World.machine, World.step, h.2, Call.free]
  | loop =>
    simp only [Holds, hcase] at h
    by_cases hlen : p.len ≠ 0
    . simp [Machine.programStep, read, hcase, hlen, World.machine, World.step, h.2, Call.free]
    . simp [Machine.programStep, read, hcase, hlen]
  | requesting =>
    simp only [Holds, hcase] at h
    have hcall := (Call.ready_or_sleeping h.2.2).resolve_right (by simp [hawake])
    simp [Machine.programStep, read, hcase, World.machine, World.step, hcall]
  | copying src blen bytes =>
    by_cases hlt : bytes.length < blen <;> simp [Machine.programStep, read, hcase, hlt]
  | commit src blen =>
    simp only [Holds, hcase] at h
    have hfree := Call.free_of_holding h.2.1
    simp [Machine.programStep, read, hcase, World.machine, World.step, hfree]
  | closed => exact absurd hcase hpos
  | thrown => simp [Holds, hcase] at h

end SimpleSource

namespace Simple

variable {c : Layout} {s s' : Simple c} {writes : List (List UInt8)} {reads : List Nat}
variable {x : CopyChoice ⊕ CopyChoice} {l : Option (Operation × Event)}
variable {tr : List ((CopyChoice ⊕ CopyChoice) × Option (Operation × Event))}

def Finished (s : Simple c) : Prop := s.left.pos = .closed ∧ s.right.pos = .closed

def work (s : Simple c) : Nat := s.left.work s.shared + s.right.work s.shared

structure Live (s : Simple c) : Prop where
  inv : s.Inv
  sleep : s.shared.Sleep
  left : s.left.pos = .closed → s.shared.fifo.eos = true
  right : s.right.pos = .closed → s.shared.fifo.eos = true

theorem work_step (h : s.Inv) (hx : s.NoWaitFails x) (hstep : (machine c).step s x = some (s', l)) :
    1 + s'.work ≤ s.work + wakeCredit (x.elim id id) ∧ (s.shared.Sleep → s'.shared.Sleep) := by
  cases x with
  | inl x =>
    obtain ⟨hprogram, hright⟩ := Machine.compose_inl hstep
    unfold work
    rw [hright]
    generalize s'.shared = w', s'.left = p' at hprogram
    cases hprogram with
    | own hmove =>
      have := SimpleDrain.work_own (w := s.shared) hmove
      exact ⟨by omega, id⟩
    | call hmove hcall =>
      obtain ⟨hwork, hside, hpos⟩ := SimpleDrain.work_call h.world h.left hx hmove hcall
      have hcases := World.step_cases h.world hcall
      have hother := SimpleSource.work_mono (p := s.right) (World.readWork_of_drain hside hpos hcases)
      refine ⟨?_, fun hsleep => hsleep.of_step hcases⟩
      simp only [Sum.elim_inl, id_eq] at hwork ⊢
      omega
  | inr x =>
    obtain ⟨hprogram, hleft⟩ := Machine.compose_inr hstep
    unfold work
    rw [hleft]
    generalize s'.shared = w', s'.right = p' at hprogram
    cases hprogram with
    | own hmove =>
      have := SimpleSource.work_own hmove
      exact ⟨by omega, id⟩
    | call hmove hcall =>
      obtain ⟨hwork, hside, hpos⟩ := SimpleSource.work_call h.world h.right hx hmove hcall
      have hcases := World.step_cases h.world hcall
      have hother := SimpleDrain.work_mono (p := s.left)
        (World.writeWork_of_source h.world hside hpos hcases)
      refine ⟨?_, fun hsleep => hsleep.of_step hcases⟩
      simp only [Sum.elim_inr, id_eq] at hwork ⊢
      omega

theorem eos_mono (h : s.Inv) (hstep : (machine c).step s x = some (s', l))
    (heos : s.shared.fifo.eos = true) : s'.shared.fifo.eos = true := by
  have hperforms := Machine.compose_performs hstep
  cases l with
  | none =>
    rw [show s'.shared = s.shared from hperforms]
    exact heos
  | some y => exact (World.eos_step (World.step_cases h.world hperforms)).mpr (.inl heos)

theorem Live.step (h : s.Live) (hx : s.NoWaitFails x) (hstep : (machine c).step s x = some (s', l)) :
    s'.Live ∧ 1 + s'.work ≤ s.work + wakeCredit (x.elim id id) := by
  obtain ⟨hinv', hcases⟩ := h.inv.step hx hstep
  obtain ⟨hwork, hsleep⟩ := work_step h.inv hx hstep
  have heos := eos_mono h.inv hstep
  refine ⟨⟨hinv', hsleep h.sleep, ?_, ?_⟩, hwork⟩
  all_goals obtain ⟨w', p', q'⟩ := s'
  . intro hclosed
    cases hcases with
    | write hone =>
      cases hone with
      | call | ret | commit => cases hclosed
      | body _ _ hpos' => exact absurd hclosed (not_closed_of_body (.inr hpos'))
      | close _ _ _ heos' => exact heos'
    | read _ hleft => exact heos (h.left ((congrArg SimpleDrain.pos hleft).symm.trans hclosed))
  . intro hclosed
    cases hcases with
    | write _ hright => exact heos (h.right ((congrArg SimpleSource.pos hright).symm.trans hclosed))
    | read hone =>
      cases hone with
      | call | copied | ret | commit => cases hclosed
      | body _ _ hpos' => exact absurd hclosed (read_not_closed_of_body (.inr hpos'))
      | close _ _ heos' => exact heos'

theorem live_init (c : Layout) (writes : List (List UInt8)) (reads : List Nat) :
    (init c writes reads).Live where
  inv := inv_init c writes reads
  sleep := World.sleep_init c
  left := nofun
  right := nofun

theorem exists_step (h : s.Live) (hfin : ¬ s.Finished) :
    ∃ x s' l, x.elim id id = .run ∧ (machine c).step s x = some (s', l) := by
  suffices ∃ x, x.elim id id = .run ∧ ((machine c).step s x).isSome = true by
    obtain ⟨x, hx, hsome⟩ := this
    obtain ⟨⟨s', l⟩, hstep⟩ := Option.isSome_iff_exists.mp hsome
    exact ⟨x, s', l, hx, hstep⟩
  have hread : s.right.pos ≠ .closed → s.shared.source.sleeping = false →
      ∃ x, x.elim id id = .run ∧ ((machine c).step s x).isSome = true := fun hpos hawake =>
    ⟨.inr .run, rfl, Machine.isSome_compose_inr (SimpleSource.enabled h.inv.right hawake hpos)⟩
  by_cases hleft : s.left.pos = .closed
  . apply hread fun hright => hfin ⟨hleft, hright⟩
    by_contra hsleep
    have heos := h.left hleft
    simp [(h.sleep.source (by simpa using hsleep)).1] at heos
  . cases hsleep : s.shared.drain.sleeping with
    | false =>
      exact ⟨.inl .run, rfl, Machine.isSome_compose_inl (SimpleDrain.enabled h.inv.left hsleep hleft)⟩
    | true =>
      apply hread
      . intro hright
        have heos := h.right hright
        simp [(h.sleep.drain hsleep).1] at heos
      . by_contra hsource
        exact h.sleep.not_both ⟨by simpa using hsource, hsleep⟩

theorem step_of_finished (h : s.Finished) : (machine c).step s x = none := by
  obtain ⟨hleft, hright⟩ := h
  cases x with
  | inl x => simp [machine, Machine.compose, Machine.programStep, SimpleDrain.write, hleft]
  | inr x => simp [machine, Machine.compose, Machine.programStep, SimpleSource.read, hright]

def wakeUps (tr : List ((CopyChoice ⊕ CopyChoice) × Option (Operation × Event))) : Nat :=
  tr.countP fun x => x.1.elim id id = .wake

theorem total_wakeCredit (tr : List ((CopyChoice ⊕ CopyChoice) × Option (Operation × Event))) :
    Machine.total (fun x => wakeCredit (x.1.elim id id)) tr = 2 * wakeUps tr := by
  rw [wakeUps, ← Machine.total_ite]
  congr 1
  funext x
  simp [wakeCredit]

theorem scriptWork_eq (lens : List Nat) : scriptWork lens = 7 * lens.sum + 2 * lens.length := by
  induction lens with
  | nil => rfl
  | cons len lens ih =>
    rw [scriptWork] at ih ⊢
    rw [List.map_cons, List.sum_cons, ih, List.sum_cons, List.length_cons]
    omega

theorem work_init (c : Layout) (writes : List (List UInt8)) (reads : List Nat) :
    (init c writes reads).work =
      7 * (writes.flatten.length + reads.sum) + 2 * (writes.length + reads.length) + 2 := by
  have hwork : (init c writes reads).work =
      1 + scriptWork (writes.map List.length) + (1 + scriptWork reads) := rfl
  rw [hwork, scriptWork_eq, scriptWork_eq, List.length_flatten, List.length_map]
  omega

theorem live_of_runs (hruns : (machine c).Runs NoWaitFails (init c writes reads) tr s) : s.Live :=
  hruns.invariant (fun _ _ _ _ h hx hstep => (h.step hx hstep).1) (live_init c writes reads)

theorem length_committed (log : List WriteCall) (h : ∀ x ∈ log, x.result ≤ x.src.length) :
    (log.flatMap fun x => x.src.take (x.src.length - x.result)).length + (log.map (·.result)).sum =
      (log.map (·.src)).flatten.length := by
  induction log with
  | nil => rfl
  | cons x log ih =>
    simp only [List.mem_cons, forall_eq_or_imp] at h
    have := ih h.2
    simp only [List.flatMap_cons, List.length_append, List.length_take, List.map_cons, List.sum_cons,
      List.flatten_cons]
    omega

theorem all_written {ops : List (Operation × Event)} (hinv : s.Inv) (hledger : Ledger writes ops s)
    (hfin : s.Finished) (hall : writes.flatten.length ≤ (received s.right).length) :
    ∀ x ∈ s.left.log, x.result = 0 := by
  obtain ⟨hleft, hright⟩ := hfin
  have hholds := hinv.left
  simp only [SimpleDrain.Holds, hleft] at hholds
  have hwrites := hledger.writes
  simp only [current, hleft, hholds.1, List.append_nil] at hwrites
  have hwritten := hledger.written
  simp only [committed, hholds.2.1, List.append_nil] at hwritten
  have hlength := length_committed s.left.log fun x hx => (hledger.partialWrite x hx).1
  rw [← hwritten, hwrites] at hlength
  have htaken : received s.right = World.taken ops := by
    rw [← hledger.taken]
    simp [SimpleSource.outFlight, hright]
  have hcontent := congrArg List.length hledger.content
  rw [List.length_append, ← htaken] at hcontent
  have hzero : (s.left.log.map (·.result)).sum = 0 := by omega
  intro x hx
  exact List.sum_eq_zero_iff_forall_eq_nat.mp hzero _ (List.mem_map_of_mem hx)

/--
All calls return: nothing but wake-ups that nobody has asked for can make the two threads take more steps
than this, and neither of them is ever left waiting for the other one.
-/
theorem all_return (hruns : (machine c).Runs NoWaitFails (init c writes reads) tr s) :
    tr.length ≤
        7 * (writes.flatten.length + reads.sum) + 2 * (writes.length + reads.length) + 2 +
          2 * wakeUps tr ∧
      ((∀ x, x.elim id id = .run → (machine c).step s x = none) →
        s.Finished ∧ s.right.log = readAll writes.flatten reads ∧
          (writes.flatten.length ≤ reads.sum → ∀ x ∈ s.left.log, x.result = 0)) := by
  have hlive := live_of_runs hruns
  constructor
  . have hcovered : (machine c).Amortized NoWaitFails Live work (fun _ => 1)
        (fun x => wakeCredit (x.1.elim id id)) := by
      constructor
      . exact fun _ _ _ _ h hx hstep => (h.step hx hstep).1
      . exact fun _ _ _ _ h hx hstep => (h.step hx hstep).2
    have hbound := hcovered.runs hruns (live_init c writes reads)
    rw [Machine.total_one, total_wakeCredit, work_init] at hbound
    omega
  . intro hmax
    have hfin : s.Finished := by
      by_contra hfin
      obtain ⟨x, s', l, hx, hstep⟩ := exists_step hlive hfin
      rw [hmax x hx] at hstep
      cases hstep
    have hlog := log_of_closed hruns hfin.2
    refine ⟨hfin, hlog, fun hle => ?_⟩
    obtain ⟨hinv, hledger⟩ := ledger_of_runs hruns
    apply all_written hinv hledger hfin
    rw [received, hlog, flatMap_readAll, List.take_of_length_le hle, List.length_append]
    omega

theorem all_return_oneByte :
    ∃ tr s, (machine .oneByte).Runs NoWaitFails (init .oneByte [[7, 8]] [2]) tr s ∧
      s.right.log = readAll [7, 8] [2] ∧ ∀ x ∈ s.left.log, x.result = 0 := by
  have hruns : (machine .oneByte).Runs NoWaitFails (init .oneByte [[7, 8]] [2])
      [(.inl .run, none), (.inl .run, some (.requestWrite 2, .entered)),
        (.inl .run, some (.passWrite, .granted 4096 1)), (.inl .run, some (.store 4096 7, .stored)),
        (.inl .run, none), (.inl .run, some (.commitWrite 4096 1, .wrote [7])),
        (.inl .run, some (.requestWrite 1, .entered)), (.inl .run, some (.passWrite, .slept)),
        (.inr .run, none), (.inr .run, some (.requestRead 2, .entered)),
        (.inr .run, some (.passRead, .granted 4096 1)), (.inr .run, none), (.inr .run, none),
        (.inr .run, some (.commitRead 4096 1, .took [7])),
        (.inr .run, some (.requestRead 1, .entered)), (.inr .run, some (.passRead, .slept)),
        (.inl .run, some (.passWrite, .granted 4096 1)), (.inl .run, some (.store 4096 8, .stored)),
        (.inl .run, none), (.inl .run, some (.commitWrite 4096 1, .wrote [8])),
        (.inr .run, some (.passRead, .granted 4096 1)), (.inr .run, none), (.inr .run, none),
        (.inr .run, some (.commitRead 4096 1, .took [8])), (.inr .run, none),
        (.inr .run, some (.endRead, .closed)), (.inl .run, none),
        (.inl .run, some (.endWrite, .closed))] _ :=
    .of_exec (by simp [NoWaitFails]) rfl
  obtain ⟨_, hlog, hwritten⟩ := (all_return hruns).2 fun x _ => step_of_finished ⟨rfl, rfl⟩
  exact ⟨_, _, hruns, hlog, hwritten (by decide)⟩

end Simple
