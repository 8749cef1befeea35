import Buffer2.Fifo.Steps

/-!
This module contains the water marks as the manual describes them, as phases of the buffer: once it is
empty nothing is read until it has been filled up to the high water mark, and once it is full nothing
is written until it has been emptied down to the low one. The operations test the marks only to notify
a thread that sleeps, so a thread that does not come to sleep in time does not observe them.
-/

namespace World

variable {c : Layout}

def Refilling (w : World c) : Prop := w.fifo.level < c.highWaterMark ∧ w.fifo.eos = false

def Emptying (w : World c) : Prop := c.lowWaterMark < w.fifo.level

/--
After the buffer was empty in `w`, no request to read that is issued from then on returns data as long
as the buffer is being refilled.
-/
def HighWaterMarkLaw (c : Layout) : Prop :=
  ∀ tr (w : World c) tr' w' w'' data n,
    (machine c).Runs Legal (init c) tr w →
    w.fifo.level = 0 →
    (machine c).Runs (fun v a => v.Legal a ∧ v.Refilling) w tr' w' →
    w'.Refilling →
    (∃ len, (.requestRead len, .entered) ∈ tr') →
    w'.step .passRead = some (w'', .granted data n) →
    n = 0

def LowWaterMarkLaw (c : Layout) : Prop :=
  ∀ tr (w : World c) tr' w' w'' data n,
    (machine c).Runs Legal (init c) tr w →
    w.fifo.level = c.bufferSize →
    (machine c).Runs (fun v a => v.Legal a ∧ v.Emptying) w tr' w' →
    w'.Emptying →
    (∃ len, (.requestWrite len, .entered) ∈ tr') →
    w'.step .passWrite = some (w'', .granted data n) →
    n = 0

def WaterMarkLaw (c : Layout) : Prop := HighWaterMarkLaw c ∧ LowWaterMarkLaw c

section Transfer

variable {w : World c} {G : World c → Operation → Prop} {k : Nat}

theorem write_runs (hinv : w.Inv) (hdrain : w.drain = .idle) (heos : w.fifo.eos = false) (hk : 0 < k)
    (hfree : k ≤ c.bufferSize - w.fifo.level) (hend : k ≤ c.bufferSize - w.fifo.wrOffset)
    (hG : ∀ v a, v.fifo.level = w.fifo.level → v.fifo.eos = w.fifo.eos → v.Legal a → G v a) :
    (machine c).Runs G w
      [(.requestWrite k, .entered), (.passWrite, .granted w.fifo.wrPos k),
        (.commitWrite w.fifo.wrPos k, .wrote (Memory.slice w.fifo.buffer w.fifo.wrPos k))]
      { fifo := w.fifo.wrote k
        drain := .idle
        source := w.source.notifyIf (decide (c.highWaterMark ≤ w.fifo.level + k)) } := by
  have hreq : w.fifo.wrReq = 0 := by
    have := hinv.drain
    rwa [hdrain] at this
  have hgrant : w.fifo.writeGrant k = k := by
    unfold StaticFIFO.writeGrant
    omega
  have hrequest := Step.requestWrite (w := w) k (by rw [hdrain]; rfl) hreq
  have hinv₁ := hinv.of_step hrequest
  have hlevel : w.fifo.level < c.bufferSize := by omega
  have hpass := Step.writeGranted (w := { w with drain := .entering k }) k rfl heos hlevel
  have hinv₂ := hinv₁.of_step hpass
  have hcommit := Step.commitWrite
    (w := { w with
            fifo := w.fifo.grantWrite k
            drain := .holding w.fifo.wrPos (w.fifo.writeGrant k) })
    k rfl (Nat.le_of_eq hgrant.symm)
  rw [hgrant] at hpass hinv₂ hcommit
  refine .cons (hG _ _ rfl rfl ?_) (step_of_cases hinv hrequest) <|
    .cons (hG _ _ rfl rfl trivial) (step_of_cases hinv₁ hpass) <|
    .cons (hG _ _ rfl rfl ?_) (step_of_cases hinv₂ hcommit) <|
    .nil _
  . exact .intro hdrain hk
  . exact .intro k (.intro rfl (Nat.le_refl k))

theorem read_runs (hinv : w.Inv) (hsource : w.source = .idle) (hk : 0 < k) (hlevel : k ≤ w.fifo.level)
    (hend : k ≤ c.bufferSize - w.fifo.rdOffset)
    (hG : ∀ v a, v.fifo.level = w.fifo.level → v.fifo.eos = w.fifo.eos → v.Legal a → G v a) :
    (machine c).Runs G w
      [(.requestRead k, .entered), (.passRead, .granted w.fifo.rdPos k),
        (.commitRead w.fifo.rdPos k, .took (Memory.slice w.fifo.buffer w.fifo.rdPos k))]
      { fifo := w.fifo.took k
        drain := w.drain.notifyIf (decide (w.fifo.level - k ≤ c.lowWaterMark))
        source := .idle } := by
  have hreq : w.fifo.rdReq = 0 := by
    have := hinv.source
    rwa [hsource] at this
  have hgrant : w.fifo.readGrant k = k := by
    unfold StaticFIFO.readGrant
    omega
  have hrequest := Step.requestRead (w := w) k (by rw [hsource]; rfl) hreq
  have hinv₁ := hinv.of_step hrequest
  have hpass := Step.readGranted (w := { w with source := .entering k }) k rfl
    (Nat.lt_of_lt_of_le hk hlevel)
  have hinv₂ := hinv₁.of_step hpass
  have hcommit := Step.commitRead
    (w := { w with
            fifo := w.fifo.grantRead k
            source := .holding w.fifo.rdPos (w.fifo.readGrant k) })
    k rfl (Nat.le_of_eq hgrant.symm)
  rw [hgrant] at hpass hinv₂ hcommit
  refine .cons (hG _ _ rfl rfl ?_) (step_of_cases hinv hrequest) <|
    .cons (hG _ _ rfl rfl trivial) (step_of_cases hinv₁ hpass) <|
    .cons (hG _ _ rfl rfl ?_) (step_of_cases hinv₂ hcommit) <|
    .nil _
  . exact .intro hsource hk
  . exact .intro k (.intro rfl (Nat.le_refl k))

theorem read_served (hinv : w.Inv) (hsource : w.source = .idle) (hlevel : 0 < w.fifo.level)
    (hG : G w (.requestRead 1)) :
    ∃ w', (machine c).Runs G w [(.requestRead 1, .entered)] w' ∧ w'.fifo = w.fifo ∧
      ∃ w'' data n, w'.step .passRead = some (w'', .granted data n) ∧ n ≠ 0 := by
  have hreq : w.fifo.rdReq = 0 := by
    have := hinv.source
    rwa [hsource] at this
  have hrequest := Step.requestRead (w := w) 1 (by rw [hsource]; rfl) hreq
  have hpass := Step.readGranted (w := { w with source := .entering 1 }) 1 rfl hlevel
  refine ⟨_, .single hG (step_of_cases hinv hrequest), rfl, _, _, _,
    step_of_cases (hinv.of_step hrequest) hpass, ?_⟩
  exact Nat.ne_of_gt (StaticFIFO.readGrant_pos hinv.fifo Nat.one_pos hlevel)

theorem write_served (hinv : w.Inv) (hdrain : w.drain = .idle) (heos : w.fifo.eos = false)
    (hlevel : w.fifo.level < c.bufferSize) (hG : G w (.requestWrite 1)) :
    ∃ w', (machine c).Runs G w [(.requestWrite 1, .entered)] w' ∧ w'.fifo = w.fifo ∧
      ∃ w'' data n, w'.step .passWrite = some (w'', .granted data n) ∧ n ≠ 0 := by
  have hreq : w.fifo.wrReq = 0 := by
    have := hinv.drain
    rwa [hdrain] at this
  have hrequest := Step.requestWrite (w := w) 1 (by rw [hdrain]; rfl) hreq
  have hpass := Step.writeGranted (w := { w with drain := .entering 1 }) 1 rfl heos hlevel
  refine ⟨_, .single hG (step_of_cases hinv hrequest), rfl, _, _, _,
    step_of_cases (hinv.of_step hrequest) hpass, ?_⟩
  exact Nat.ne_of_gt (StaticFIFO.writeGrant_pos hinv.fifo Nat.one_pos hlevel)

end Transfer

theorem highWaterMark_le_of_law (h : HighWaterMarkLaw c) : c.highWaterMark ≤ 1 := by
  apply Nat.le_of_not_lt
  intro hhigh
  have hpos := c.size_pos
  have hguard : ∀ (v : World c) (a : Operation), v.fifo.level ≤ 1 → v.fifo.eos = false → v.Legal a →
      v.Legal a ∧ v.Refilling :=
    fun v a hlevel heos hlegal => ⟨hlegal, Nat.lt_of_le_of_lt hlevel hhigh, heos⟩
  -- One byte is written to the empty buffer and requested at once.
  have hwrite := write_runs (w := init c) (G := fun v a => v.Legal a ∧ v.Refilling) (k := 1)
    (inv_init c) rfl rfl Nat.one_pos (by simp [init]; omega) (by simp [init, StaticFIFO.wrOffset]; omega)
    (fun v a hlevel heos hlegal => hguard v a (by rw [hlevel]; exact Nat.zero_le 1) heos hlegal)
  obtain ⟨w', hrequest, hfifo, w'', data, n, hpass, hn⟩ :=
    read_served (G := fun v a => v.Legal a ∧ v.Refilling) ((inv_init c).runs hwrite)
      (Call.notifyIf_eq_idle.mpr rfl) Nat.one_pos
      (hguard _ _ (Nat.le_refl 1) rfl (And.intro (Call.notifyIf_eq_idle.mpr rfl) Nat.one_pos))
  refine hn (h [] (init c) _ w' w'' data n (.nil _) rfl (hwrite.append hrequest) ?_ ⟨1, by simp⟩ hpass)
  rw [Refilling, hfifo]
  exact ⟨hhigh, rfl⟩

theorem bufferSize_le_of_law (h : LowWaterMarkLaw c) : c.bufferSize ≤ c.lowWaterMark + 1 := by
  apply Nat.le_of_not_lt
  intro hlow
  have hpos := c.size_pos
  -- The buffer is filled, one byte is read, and its space requested at once.
  have hfill := write_runs (w := init c) (G := Legal) (k := c.bufferSize) (inv_init c) rfl rfl hpos
    (by simp [init]) (by simp [init, StaticFIFO.wrOffset]) (fun _ _ _ _ hlegal => hlegal)
  have hinv := (inv_init c).runs hfill
  have hguard : ∀ (v : World c) (a : Operation), c.bufferSize - 1 ≤ v.fifo.level → v.Legal a →
      v.Legal a ∧ v.Emptying :=
    fun v a hlevel hlegal => ⟨hlegal, Nat.lt_of_lt_of_le (by omega) hlevel⟩
  have hfull : ((init c).fifo.wrote c.bufferSize).level = c.bufferSize := Nat.zero_add _
  have hread := read_runs (G := fun v a => v.Legal a ∧ v.Emptying) (k := 1) hinv
    (Call.notifyIf_eq_idle.mpr rfl) Nat.one_pos (by rw [hfull]; exact hpos)
    (by simp [init, StaticFIFO.rdOffset]; omega)
    (fun v a hlevel _ hlegal => hguard v a (by rw [hlevel, hfull]; omega) hlegal)
  have hlevel : ((init c).fifo.wrote c.bufferSize).level - 1 = c.bufferSize - 1 := by rw [hfull]
  obtain ⟨w', hrequest, hfifo, w'', data, n, hpass, hn⟩ :=
    write_served (G := fun v a => v.Legal a ∧ v.Emptying) (hinv.runs hread)
      (Call.notifyIf_eq_idle.mpr rfl) rfl
      (by show ((init c).fifo.wrote c.bufferSize).level - 1 < _; omega)
      (hguard _ _ (Nat.le_of_eq hlevel.symm)
        (And.intro (Call.notifyIf_eq_idle.mpr rfl) Nat.one_pos))
  refine hn (h _ _ _ w' w'' data n hfill hfull (hread.append hrequest) ?_ ⟨1, by simp⟩ hpass)
  rw [Emptying, hfifo]
  show c.lowWaterMark < ((init c).fifo.wrote c.bufferSize).level - 1
  omega

theorem waterMarkLaw_iff :
    WaterMarkLaw c ↔ c.highWaterMark ≤ 1 ∧ c.bufferSize ≤ c.lowWaterMark + 1 := by
  constructor
  . intro h
    exact ⟨highWaterMark_le_of_law h.1, bufferSize_le_of_law h.2⟩
  . rintro ⟨hhigh, hlow⟩
    constructor
    . intro tr w tr' w' w'' data n hruns _ hruns' hrefill _ hstep
      have hinv := ((inv_init c).runs hruns).runs hruns'
      have := hrefill.1
      cases step_cases hinv hstep with
      | readGranted len hready hlevel => omega
    . intro tr w tr' w' w'' data n hruns _ hruns' hempty _ hstep
      have hinv := ((inv_init c).runs hruns).runs hruns'
      have hempty : c.lowWaterMark < w'.fifo.level := hempty
      cases step_cases hinv hstep with
      | writeGranted len hready heos hlevel => omega

theorem not_waterMarkLaw : ¬ WaterMarkLaw .twoBytes := by
  intro h
  have hruns : (machine .twoBytes).Runs (fun v a => v.Legal a ∧ v.Refilling) (init .twoBytes)
      [(.requestWrite 1, .entered), (.passWrite, .granted 4096 1), (.commitWrite 4096 1, .wrote [0]),
        (.requestRead 1, .entered)] _ :=
    .cons ⟨.intro rfl (by decide), .intro (by decide) rfl⟩ rfl <|
    .cons ⟨trivial, .intro (by decide) rfl⟩ rfl <|
    .cons ⟨.intro 1 (.intro rfl (by decide)), .intro (by decide) rfl⟩ rfl <|
    .cons ⟨.intro rfl (by decide), .intro (by decide) rfl⟩ rfl <|
    .nil _
  have hzero := h.1 [] (init .twoBytes) _ _ _ 4096 1 (.nil _) rfl hruns (.intro (by decide) rfl)
    ⟨1, by decide⟩ rfl
  exact absurd hzero (by decide)

end World
