import Buffer2.Fifo.Progress
import Buffer2.Workers.Flow

/-!
This module contains the work that is left for the two workers. Every step of a worker does a part of its
own work, and none adds to the work of the other one.
-/

open Memory

namespace InputWorker

variable {c : Layout}

def Ready (p : InputWorker) (w : World c) : Prop :=
  match p.pos with
  | .reading _ len n => 0 < len ∧ n ≤ p.stream.length
  | .commit _ n => 0 < n
  | .endWrite => w.drain.free = true
  | .done => w.fifo.eos = true
  | _ => True

/--
Each byte that the input has still to return may need a request, a sleep in it, a pass after that, a
store, the return of `ReadData` and a commit.
-/
def work (p : InputWorker) (w : World c) : Nat :=
  match p.pos with
  | .initializing => 7 * p.stream.length + 7
  | .request => 7 * p.stream.length + 6
  | .requesting => 7 * p.stream.length + w.writeWork
  | .reading _ _ n => 7 * p.stream.length + 2 - n
  | .commit _ _ => 7 * p.stream.length + 7
  | .endWrite => 1
  | .done => 0

def uncommitted (p : InputWorker) : Nat :=
  match p.pos with
  | .commit _ n => n
  | _ => 0

def rest (p : InputWorker) : Nat := p.stream.length + p.uncommitted

theorem Ready.frame {p : InputWorker} {w w' : World c} (h : p.Ready w) {notify : Bool}
    (hdrain : w'.drain = w.drain.notifyIf notify) (heos : w.fifo.eos = true → w'.fifo.eos = true) :
    p.Ready w' := by
  unfold Ready at h ⊢
  split <;> simp_all

theorem work_mono {p : InputWorker} {w w' : World c} (h : w'.writeWork ≤ w.writeWork) :
    p.work w' ≤ p.work w := by
  unfold work
  split <;> omega

end InputWorker

namespace OutputWorker

variable {c : Layout}

def Ready (q : OutputWorker) (w : World c) : Prop :=
  match q.pos with
  | .writing _ len _ => 0 < len
  | .commit _ n => 0 < n
  | .endRead => w.source.free = true
  | .done => w.fifo.eos = true
  | _ => True

/--
`remaining` is the number of bytes that may still come out of the FIFO.
-/
def work (q : OutputWorker) (remaining : Nat) (w : World c) : Nat :=
  match q.pos with
  | .initializing => 7 * remaining + 7
  | .request => 7 * remaining + 6
  | .requesting => 7 * remaining + w.readWork
  | .writing _ _ bytes => 7 * remaining + 2 - bytes.length
  | .commit _ n => 7 * (remaining - n) + 7
  | .endRead => 1
  | .done => 0

theorem Ready.frame {q : OutputWorker} {w w' : World c} (h : q.Ready w) {notify : Bool}
    (hsource : w'.source = w.source.notifyIf notify) (heos : w.fifo.eos = true → w'.fifo.eos = true) :
    q.Ready w' := by
  unfold Ready at h ⊢
  split <;> simp_all

theorem work_mono {q : OutputWorker} {w w' : World c} {remaining remaining' : Nat}
    (hremaining : remaining' ≤ remaining) (h : w'.readWork ≤ w.readWork) :
    q.work remaining' w' ≤ q.work remaining w := by
  unfold work
  split <;> omega

end OutputWorker

namespace Workers

variable {c : Layout} {requestSize : Nat} {w w' : World c} {p p' : InputWorker} {q q' : OutputWorker}
variable {x : Choice}

def wakeCredit (x : Choice) : Nat := if x = .wake then 2 else 0

section Input

structure InputDone (x : Choice) (w w' : World c) (p p' : InputWorker) : Prop where
  ready : p'.Ready w'
  work : 1 + p'.work w' ≤ p.work w + wakeCredit x
  rest : p'.rest + w'.fifo.level ≤ p.rest + w.fifo.level

theorem inputDone_own (h : Inv requestSize w p q) (hready : p.Ready w)
    (hmove : p.move requestSize x = some (.own p')) : InputDone x w w p p' := by
  have hin := h.input
  cases InputWorker.move_cases hmove with
  | initialized hpos =>
    constructor
    . trivial
    . simp only [InputWorker.work, hpos]
      omega
    . simp [InputWorker.rest, InputWorker.uncommitted, hpos]
  | initializeThrew e hpos =>
    simp only [InputWorker.Holds, hpos] at hin
    constructor
    . show w.drain.free = true
      rw [hin.2]
      rfl
    . simp only [InputWorker.work, InputWorker.handle, hpos]
      omega
    . simp [InputWorker.rest, InputWorker.uncommitted, InputWorker.handle, hpos]
  | readData buf len n hpos hn =>
    simp only [InputWorker.Ready, hpos] at hready
    constructor
    . exact Nat.pos_of_ne_zero hn
    . simp only [InputWorker.work, hpos, List.length_drop]
      omega
    . simp only [InputWorker.rest, InputWorker.uncommitted, hpos, List.length_drop]
      omega
  | endOfStream buf len hpos hstream =>
    simp only [InputWorker.Holds, hpos] at hin
    constructor
    . exact Call.free_of_holding hin.2.1
    . simp only [InputWorker.work, hpos]
      omega
    . simp [InputWorker.rest, InputWorker.uncommitted, hpos]
  | readThrew buf len n e hpos =>
    simp only [InputWorker.Holds, hpos] at hin
    simp only [InputWorker.Ready, hpos] at hready
    constructor
    . exact Call.free_of_holding hin.2.1
    . simp only [InputWorker.work, InputWorker.handle, hpos]
      omega
    . simp [InputWorker.rest, InputWorker.uncommitted, InputWorker.handle, hpos]

theorem inputDone_quiet (pos : InputPos) (hquiet : World.Quiet w w')
    (hready : ({ p with pos } : InputWorker).Ready w') (hpos : p.uncommitted = 0)
    (hpos' : ({ p with pos } : InputWorker).uncommitted = 0)
    (hwork : 1 + ({ p with pos } : InputWorker).work w' ≤ p.work w + wakeCredit x) :
    InputDone x w w' p { p with pos } where
  ready := hready
  work := hwork
  rest := by
    unfold InputWorker.rest
    rw [hpos, hpos', hquiet.level]

theorem inputDone_call (hsize : 0 < requestSize) (h : Inv requestSize w p q) (hready : p.Ready w)
    {a : Operation} {e : Event} {resume : Event → InputWorker}
    (hmove : p.move requestSize x = some (.call a resume)) (hstep : w.step a = some (w', e)) :
    InputDone x w w' p (resume e) ∧ a.side = .drain ∧ w.PositiveCommit a := by
  have hin := h.input
  cases InputWorker.move_cases hmove with
  | requestWrite hpos =>
    simp only [InputWorker.Holds, hpos] at hin
    obtain ⟨rfl, _, hquiet⟩ := World.requestWrite_rule h.world hin.2 hstep
    refine ⟨?_, rfl, trivial⟩
    apply inputDone_quiet .requesting hquiet trivial (by simp [InputWorker.uncommitted, hpos]) rfl
    have := World.writeWork_le w'
    simp only [InputWorker.work, hpos]
    omega
  | passWrite hpos =>
    simp only [InputWorker.Holds, hpos] at hin
    have huncommitted : p.uncommitted = 0 := by simp [InputWorker.uncommitted, hpos]
    have hpending := World.writeWork_of_pending hin.2
    obtain ⟨hrequested, _, hquiet⟩ := World.passWrite_rule h.world hin.2 hsize hstep
    refine ⟨?_, rfl, trivial⟩
    cases hrequested with
    | granted data n hn =>
      have hresume : p.resume (.granted data n) = { p with pos := .reading data n 0 } := by
        simp only [InputWorker.resume, Nat.ne_of_gt hn, ↓reduceIte]
      rw [hresume]
      apply inputDone_quiet (.reading data n 0) hquiet ⟨hn, Nat.zero_le _⟩ huncommitted rfl
      simp only [InputWorker.work, hpos]
      omega
    | ended hcall =>
      apply inputDone_quiet .endWrite hquiet _ huncommitted rfl
      . simp only [InputWorker.work, hpos]
        omega
      . show w'.drain.free = true
        rw [hcall]
        rfl
    | slept =>
      have hslept := World.passWrite_work h.world hstep
      apply inputDone_quiet .requesting hquiet trivial huncommitted rfl
      simp only [InputWorker.work, hpos]
      omega
  | wakeWrite hpos =>
    simp only [InputWorker.Holds, hpos] at hin
    have hwork := World.wakeWrite_work h.world hstep
    obtain ⟨rfl, _, hquiet⟩ := World.wakeWrite_rule h.world hin.2 hstep
    refine ⟨?_, rfl, trivial⟩
    apply inputDone_quiet .requesting hquiet trivial (by simp [InputWorker.uncommitted, hpos]) rfl
    simp only [InputWorker.work, hpos, wakeCredit, ↓reduceIte]
    omega
  | failWrite hpos =>
    simp only [InputWorker.Holds, hpos] at hin
    have hpending := World.writeWork_of_pending hin.2
    obtain ⟨rfl, hidle, hquiet⟩ := World.failWrite_rule h.world hstep
    refine ⟨?_, rfl, trivial⟩
    apply inputDone_quiet .endWrite hquiet _ (by simp [InputWorker.uncommitted, hpos]) rfl
    . simp only [InputWorker.work, hpos]
      omega
    . show w'.drain.free = true
      rw [hidle]
      rfl
  | store buf len n b hpos hb hn =>
    simp only [InputWorker.Holds, hpos] at hin
    simp only [InputWorker.Ready, hpos] at hready
    have hlt := (List.getElem?_eq_some_iff.mp hb).1
    obtain ⟨rfl, _, _, hquiet⟩ := World.store_rule h.world hin.2.1 hn hstep
    refine ⟨?_, rfl, trivial⟩
    apply inputDone_quiet (.reading buf len (n + 1)) hquiet ⟨hready.1, hlt⟩
      (by simp [InputWorker.uncommitted, hpos]) rfl
    simp only [InputWorker.work, hpos]
    omega
  | commitWrite buf n hpos =>
    simp only [InputWorker.Holds, hpos] at hin
    simp only [InputWorker.Ready, hpos] at hready
    obtain ⟨_, len, hholding, hle⟩ := hin
    obtain ⟨rfl, _, hcontent, _⟩ := World.commitWrite_rule h.world hholding hle hstep
    have hlevel : w'.fifo.level = w.fifo.level + n := by
      rw [← World.length_content w', hcontent, List.length_append, World.length_content, length_slice]
    refine ⟨?_, rfl, hready⟩
    constructor
    . trivial
    . simp only [InputWorker.work, InputWorker.resumeCommit, hpos]
      omega
    . simp only [InputWorker.rest, InputWorker.uncommitted, InputWorker.resumeCommit, hpos, hlevel]
      omega
  | endWrite hpos =>
    obtain ⟨rfl, _, hcontent, heos⟩ := World.endWrite_rule h.world hstep
    have hlevel : w'.fifo.level = w.fifo.level := by
      rw [← World.length_content w', hcontent, World.length_content]
    refine ⟨?_, rfl, trivial⟩
    constructor
    . exact heos
    . simp only [InputWorker.work, hpos]
      omega
    . simp [InputWorker.rest, InputWorker.uncommitted, hpos, hlevel]

end Input

section Output

structure OutputDone (x : Choice) (w w' : World c) (q q' : OutputWorker) : Prop where
  ready : q'.Ready w'
  work (rest : Nat) : 1 + q'.work (rest + w'.fifo.level) w' ≤ q.work (rest + w.fifo.level) w + wakeCredit x
  level : w'.fifo.level ≤ w.fifo.level

theorem le_level_of_writing (h : Inv requestSize w p q) {buf len : Nat} {bytes : List UInt8}
    (hpos : q.pos = .writing buf len bytes) : len ≤ w.fifo.level ∧ bytes.length ≤ len := by
  have hout := h.output
  simp only [OutputWorker.Holds, hpos] at hout
  rw [← World.length_content]
  exact ⟨World.le_of_holding h.world hout.2.1, hout.2.2.1⟩

theorem le_level_of_commit (h : Inv requestSize w p q) {buf n : Nat} (hpos : q.pos = .commit buf n) :
    n ≤ w.fifo.level := by
  have hout := h.output
  simp only [OutputWorker.Holds, hpos] at hout
  obtain ⟨_, _, hholding, hle⟩ := hout
  rw [← World.length_content]
  exact Nat.le_trans hle (World.le_of_holding h.world hholding)

theorem outputDone_quiet (pos : OutputPos) (hquiet : World.Quiet w w')
    (hready : ({ q with pos } : OutputWorker).Ready w')
    (hwork : ∀ remaining, w.fifo.level ≤ remaining →
      1 + ({ q with pos } : OutputWorker).work remaining w' ≤ q.work remaining w + wakeCredit x) :
    OutputDone x w w' q { q with pos } where
  ready := hready
  work rest := by
    rw [hquiet.level]
    exact hwork _ (Nat.le_add_left _ _)
  level := Nat.le_of_eq hquiet.level

theorem outputDone_own (h : Inv requestSize w p q) (hready : q.Ready w)
    (hmove : q.move requestSize w.fifo.buffer x = some (.own q')) : OutputDone x w w q q' := by
  have hout := h.output
  have hquiet : World.Quiet w w := ⟨rfl, rfl⟩
  cases OutputWorker.move_cases hmove with
  | initialized hpos =>
    apply outputDone_quiet .request hquiet trivial
    intro remaining _
    simp only [OutputWorker.work, hpos]
    omega
  | initializeThrew e hpos =>
    simp only [OutputWorker.Holds, hpos] at hout
    constructor
    . show w.source.free = true
      rw [hout.2]
      rfl
    . intro rest
      simp only [OutputWorker.work, OutputWorker.handle, hpos]
      omega
    . exact Nat.le_refl _
  | load buf len bytes hpos hlen =>
    obtain ⟨hle, _⟩ := le_level_of_writing h hpos
    simp only [OutputWorker.Ready, hpos] at hready
    apply outputDone_quiet (.writing buf len _) hquiet hready
    intro remaining hremaining
    simp only [OutputWorker.work, hpos, List.length_append, List.length_singleton]
    omega
  | writeRefused buf len hpos =>
    simp only [OutputWorker.Holds, hpos] at hout
    constructor
    . exact Call.free_of_holding hout.2.1
    . intro rest
      simp only [OutputWorker.work, OutputWorker.handle, hpos, List.length_nil]
      omega
    . exact Nat.le_refl _
  | writeData buf len bytes hpos hnil =>
    obtain ⟨hle, hbytes⟩ := le_level_of_writing h hpos
    have hlen := List.length_pos_of_ne_nil hnil
    constructor
    . exact hlen
    . intro rest
      simp only [OutputWorker.work, hpos]
      omega
    . exact Nat.le_refl _
  | writeThrew buf len bytes e hpos =>
    obtain ⟨hle, hbytes⟩ := le_level_of_writing h hpos
    simp only [OutputWorker.Holds, hpos] at hout
    constructor
    . exact Call.free_of_holding hout.2.1
    . intro rest
      simp only [OutputWorker.work, OutputWorker.handle, hpos]
      omega
    . exact Nat.le_refl _

theorem outputDone_call (hsize : 0 < requestSize) (h : Inv requestSize w p q) (hready : q.Ready w)
    {a : Operation} {e : Event} {resume : Event → OutputWorker}
    (hmove : q.move requestSize w.fifo.buffer x = some (.call a resume))
    (hstep : w.step a = some (w', e)) :
    OutputDone x w w' q (resume e) ∧ a.side = .source ∧ w.PositiveCommit a := by
  have hout := h.output
  cases OutputWorker.move_cases hmove with
  | requestRead hpos =>
    simp only [OutputWorker.Holds, hpos] at hout
    obtain ⟨rfl, _, hquiet⟩ := World.requestRead_rule h.world hout.2 hstep
    refine ⟨?_, rfl, trivial⟩
    apply outputDone_quiet .requesting hquiet trivial
    intro remaining _
    have := World.readWork_le w'
    simp only [OutputWorker.work, hpos]
    omega
  | passRead hpos =>
    simp only [OutputWorker.Holds, hpos] at hout
    have hpending := World.readWork_of_pending hout.2
    obtain ⟨hrequested, _, hquiet⟩ := World.passRead_rule h.world hout.2 hsize hstep
    refine ⟨?_, rfl, trivial⟩
    cases hrequested with
    | granted data n hn =>
      have hresume : q.resume (.granted data n) = { q with pos := .writing data n [] } := by
        simp only [OutputWorker.resume, Nat.ne_of_gt hn, ↓reduceIte]
      rw [hresume]
      apply outputDone_quiet (.writing data n []) hquiet hn
      intro remaining _
      simp only [OutputWorker.work, hpos, List.length_nil]
      omega
    | ended hcall =>
      apply outputDone_quiet .endRead hquiet
      . show w'.source.free = true
        rw [hcall]
        rfl
      . intro remaining _
        simp only [OutputWorker.work, hpos]
        omega
    | slept =>
      have hslept := World.passRead_work h.world hstep
      apply outputDone_quiet .requesting hquiet trivial
      intro remaining _
      simp only [OutputWorker.work, hpos]
      omega
  | wakeRead hpos =>
    simp only [OutputWorker.Holds, hpos] at hout
    have hwork := World.wakeRead_work h.world hstep
    obtain ⟨rfl, _, hquiet⟩ := World.wakeRead_rule h.world hout.2 hstep
    refine ⟨?_, rfl, trivial⟩
    apply outputDone_quiet .requesting hquiet trivial
    intro remaining _
    simp only [OutputWorker.work, hpos, wakeCredit, ↓reduceIte]
    omega
  | failRead hpos =>
    simp only [OutputWorker.Holds, hpos] at hout
    have hpending := World.readWork_of_pending hout.2
    obtain ⟨rfl, hidle, hquiet⟩ := World.failRead_rule h.world hstep
    refine ⟨?_, rfl, trivial⟩
    apply outputDone_quiet .endRead hquiet
    . show w'.source.free = true
      rw [hidle]
      rfl
    . intro remaining _
      simp only [OutputWorker.work, hpos]
      omega
  | commitRead buf n hpos =>
    have hle := le_level_of_commit h hpos
    simp only [OutputWorker.Holds, hpos] at hout
    simp only [OutputWorker.Ready, hpos] at hready
    obtain ⟨_, len, hholding, hlen⟩ := hout
    obtain ⟨rfl, _, hcontent, _⟩ := World.commitRead_rule h.world hholding hlen hstep
    have hlevel : w'.fifo.level = w.fifo.level - n := by
      rw [← World.length_content w', hcontent, List.length_drop, World.length_content]
    refine ⟨?_, rfl, hready⟩
    constructor
    . trivial
    . intro rest
      simp only [OutputWorker.work, OutputWorker.resumeCommit, hpos]
      omega
    . omega
  | endRead hpos =>
    obtain ⟨rfl, _, hcontent, heos⟩ := World.endRead_rule h.world hstep
    have hlevel : w'.fifo.level = w.fifo.level := by
      rw [← World.length_content w', hcontent, World.length_content]
    refine ⟨?_, rfl, trivial⟩
    constructor
    . exact heos
    . intro rest
      simp only [OutputWorker.work, hpos]
      omega
    . exact Nat.le_of_eq hlevel

end Output

end Workers
