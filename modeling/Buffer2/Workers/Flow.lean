import Buffer2.Machine.Pipeline
import Buffer2.Fifo.Rules
import Buffer2.Workers.Steps

/-!
This module contains the proof that the two workers and their FIFO are a pipeline.
-/

open Memory

namespace InputWorker

def stage (p : InputWorker) : Stage :=
  match p.pos with
  | .endWrite => .stopped p.result
  | .done => .ended p.result
  | _ => .running

def inFlight (p : InputWorker) (buffer : Nat → UInt8) : List UInt8 :=
  match p.pos with
  | .commit buf len => slice buffer buf len
  | _ => []

def between (pos : InputPos) : Bool :=
  match pos with
  | .initializing | .request | .requesting | .reading _ _ _ => true
  | _ => false

theorem stage_of_between {p : InputWorker} (h : between p.pos = true) : p.stage = .running := by
  unfold between at h
  split at h <;> simp_all [stage]

theorem inFlight_of_between {p : InputWorker} (h : between p.pos = true) (buffer : Nat → UInt8) :
    p.inFlight buffer = [] := by
  unfold between at h
  split at h <;> simp_all [inFlight]

def Holds (requestSize : Nat) {c : Layout} (p : InputWorker) (w : World c) : Prop :=
  match p.pos with
  | .initializing | .request => p.result = 0 ∧ w.drain = .idle
  | .requesting => p.result = 0 ∧ w.drain.pending = some requestSize
  | .reading buf len n =>
    p.result = 0 ∧ w.drain = .holding buf len ∧ n ≤ len ∧ slice w.fifo.buffer buf n = p.stream.take n
  | .commit buf n => p.result = 0 ∧ ∃ len, w.drain = .holding buf len ∧ n ≤ len
  | .endWrite | .done => True

theorem Holds.frame {requestSize : Nat} {c : Layout} {p : InputWorker} {w w' : World c}
    (h : p.Holds requestSize w) {notify : Bool} (hdrain : w'.drain = w.drain.notifyIf notify)
    (hbuffer : w'.fifo.buffer = w.fifo.buffer) : p.Holds requestSize w' := by
  unfold Holds at h ⊢
  split <;> simp_all

end InputWorker

namespace OutputWorker

def stage (p : OutputWorker) : Stage :=
  match p.pos with
  | .endRead => .stopped p.result
  | .done => .ended p.result
  | _ => .running

def outFlight (p : OutputWorker) (content : List UInt8) : List UInt8 :=
  match p.pos with
  | .commit _ len => content.take len
  | _ => []

def between (pos : OutputPos) : Bool :=
  match pos with
  | .initializing | .request | .requesting | .writing _ _ _ => true
  | _ => false

theorem stage_of_between {p : OutputWorker} (h : between p.pos = true) : p.stage = .running := by
  unfold between at h
  split at h <;> simp_all [stage]

theorem outFlight_of_between {p : OutputWorker} (h : between p.pos = true) (content : List UInt8) :
    p.outFlight content = [] := by
  unfold between at h
  split at h <;> simp_all [outFlight]

def Holds (requestSize : Nat) {c : Layout} (p : OutputWorker) (w : World c) : Prop :=
  match p.pos with
  | .initializing | .request => p.result = 0 ∧ w.source = .idle
  | .requesting => p.result = 0 ∧ w.source.pending = some requestSize
  | .writing buf len bytes =>
    p.result = 0 ∧ w.source = .holding buf len ∧ bytes.length ≤ len ∧
      bytes = w.content.take bytes.length
  | .commit buf n => p.result = 0 ∧ ∃ len, w.source = .holding buf len ∧ n ≤ len
  | .endRead | .done => True

section Frame

variable {requestSize : Nat} {c : Layout} {p : OutputWorker} {w w' : World c}

theorem Holds.frame (hinv : w.Inv) (h : p.Holds requestSize w) {notify : Bool}
    (hsource : w'.source = w.source.notifyIf notify) (hcontent : w.content <+: w'.content) :
    p.Holds requestSize w' := by
  obtain ⟨pos, result, accepted⟩ := p
  cases pos with
  | initializing | request | requesting | commit => simpa [Holds, hsource] using h
  | writing buf len bytes =>
    obtain ⟨hresult, hholding, hle, hbytes⟩ := h
    obtain ⟨rest, hrest⟩ := hcontent
    have hlen := World.le_of_holding hinv hholding
    refine ⟨hresult, by rw [hsource, hholding, Call.notifyIf_eq_holding], hle, ?_⟩
    rw [← hrest, List.take_append_of_le_length (by omega)]
    exact hbytes
  | endRead | done => trivial

theorem Holds.outFlight_frame (hinv : w.Inv) (h : p.Holds requestSize w)
    (hcontent : w.content <+: w'.content) : p.outFlight w'.content = p.outFlight w.content := by
  unfold outFlight
  split
  . next buf n hpos =>
    simp only [Holds, hpos] at h
    obtain ⟨_, len, hholding, hle⟩ := h
    obtain ⟨rest, hrest⟩ := hcontent
    have hlen := World.le_of_holding hinv hholding
    rw [← hrest, List.take_append_of_le_length (by omega)]
  . rfl

end Frame

end OutputWorker

namespace Workers

variable {c : Layout}

def flow (w : World c) (p : InputWorker) (q : OutputWorker) : Pipeline UInt8 where
  stream := p.stream
  delivered := p.delivered
  inFlight := p.inFlight w.fifo.buffer
  input := p.stage
  content := w.content
  eos := w.fifo.eos
  outFlight := q.outFlight w.content
  accepted := q.accepted
  output := q.stage

structure Inv (requestSize : Nat) (w : World c) (p : InputWorker) (q : OutputWorker) : Prop where
  world : w.Inv
  input : p.Holds requestSize w
  output : q.Holds requestSize w

/--
How the pipeline follows a step in which a worker chose `x`: it stays as it is, makes a harmless step,
or the operation `fail`, which is what a failing `Wait` is to it.
-/
inductive Follows (fail : Pipeline.Op) (x : Choice) (p p' : Pipeline UInt8) : Prop
  | idle (hx : x ≠ .waitFails) (heq : p' = p)
  | moves (op : Pipeline.Op) (hx : x ≠ .waitFails) (hen : p.Enabled op)
      (hharm : ∀ q : Pipeline UInt8, q.Harmless op) (heq : p' = p.next op)
  | fails (hx : x = .waitFails) (hen : p.Enabled fail) (heq : p' = p.next fail)

section Input

variable {requestSize : Nat} {w w' : World c} {p p' : InputWorker} {q : OutputWorker} {x : Choice}

theorem input_handle_ne_zero {e : Exception} (he : e ≠ .interrupt) : (p.handle e).result ≠ 0 := by
  cases e <;> simp [InputWorker.handle] at he ⊢

theorem Inv.of_drain_step (h : Inv requestSize w p q) {a : Operation} {e : Event} (hside : a.side = .drain)
    (hstep : w.step a = some (w', e)) (hcontent : w.content <+: w'.content)
    (hholds : p'.Holds requestSize w') : Inv requestSize w' p' q := by
  obtain ⟨notify, hsource⟩ := World.source_frame h.world hside hstep
  exact ⟨h.world.step hstep, hholds, h.output.frame h.world hsource hcontent⟩

theorem follows_of_input_quiet (pos : InputPos) (hx : x ≠ .waitFails)
    (hpos : InputWorker.between p.pos = true) (hpos' : InputWorker.between pos = true)
    (hquiet : World.Quiet w w') : Follows .failInput x (flow w p q) (flow w' { p with pos } q) := by
  have hstage : ({ p with pos } : InputWorker).stage = .running := InputWorker.stage_of_between hpos'
  have hinFlight : ({ p with pos } : InputWorker).inFlight w'.fifo.buffer = [] :=
    InputWorker.inFlight_of_between hpos' _
  apply Follows.idle hx
  simp only [flow, hstage, hinFlight, InputWorker.stage_of_between hpos,
    InputWorker.inFlight_of_between hpos, hquiet.content, hquiet.eos]

theorem follows_of_input_stop (result : Nat) (hx : x ≠ .waitFails)
    (hpos : InputWorker.between p.pos = true) (hquiet : World.Quiet w w')
    (hreason : result = 0 → p.stream = [] ∨ w.fifo.eos = true) :
    Follows .failInput x (flow w p q) (flow w' { p with pos := .endWrite, result } q) := by
  have hinFlight := InputWorker.inFlight_of_between hpos
  apply Follows.moves (.stopInput result) hx
  . exact ⟨InputWorker.stage_of_between hpos, hinFlight _, hreason⟩
  . exact fun _ => trivial
  . simp only [flow, Pipeline.next, hinFlight, hquiet.content, hquiet.eos]
    rfl

theorem follows_of_input_throw {e : Exception} (hx : x ≠ .waitFails) (he : e ≠ .interrupt)
    (hpos : InputWorker.between p.pos = true) :
    Follows .failInput x (flow w p q) (flow w (p.handle e) q) := by
  apply follows_of_input_stop _ hx hpos ⟨rfl, rfl⟩
  intro hresult
  exact absurd hresult (input_handle_ne_zero he)

theorem input_own (h : Inv requestSize w p q) (hx : x ≠ .throws .interrupt)
    (hmove : p.move requestSize x = some (.own p')) :
    Inv requestSize w p' q ∧ Follows .failInput x (flow w p q) (flow w p' q) := by
  have hin := h.input
  have hquiet : World.Quiet w w := ⟨rfl, rfl⟩
  cases InputWorker.move_cases hmove with
  | initialized hpos =>
    simp only [InputWorker.Holds, hpos] at hin
    constructor
    . exact ⟨h.world, hin, h.output⟩
    . exact follows_of_input_quiet .request (by simp) (by rw [hpos]; rfl) rfl hquiet
  | initializeThrew e hpos =>
    constructor
    . exact ⟨h.world, trivial, h.output⟩
    . exact follows_of_input_throw (by simp) (fun he => hx (by rw [he])) (by rw [hpos]; rfl)
  | readData buf len n hpos hn =>
    simp only [InputWorker.Holds, hpos] at hin
    obtain ⟨hresult, hholding, hle, hslice⟩ := hin
    constructor
    . exact ⟨h.world, ⟨hresult, len, hholding, hle⟩, h.output⟩
    . apply Follows.moves (.deliver n)
      . simp
      . simp [flow, Pipeline.Enabled, InputWorker.inFlight, InputWorker.stage, hpos]
      . exact fun _ => trivial
      . simp [flow, Pipeline.next, InputWorker.inFlight, InputWorker.stage, hpos, hslice]
  | endOfStream buf len hpos hstream =>
    constructor
    . exact ⟨h.world, trivial, h.output⟩
    . exact follows_of_input_stop p.result (by simp) (by rw [hpos]; rfl) hquiet fun _ => .inl hstream
  | readThrew buf len n e hpos =>
    constructor
    . exact ⟨h.world, trivial, h.output⟩
    . exact follows_of_input_throw (by simp) (fun he => hx (by rw [he])) (by rw [hpos]; rfl)

theorem input_call (hsize : 0 < requestSize) (h : Inv requestSize w p q) {a : Operation} {e : Event}
    {resume : Event → InputWorker} (hmove : p.move requestSize x = some (.call a resume))
    (hstep : w.step a = some (w', e)) :
    Inv requestSize w' (resume e) q ∧ Follows .failInput x (flow w p q) (flow w' (resume e) q) := by
  have hin := h.input
  cases InputWorker.move_cases hmove with
  | requestWrite hpos =>
    have hbetween : InputWorker.between p.pos = true := by rw [hpos]; rfl
    simp only [InputWorker.Holds, hpos] at hin
    obtain ⟨hresult, hidle⟩ := hin
    obtain ⟨rfl, hpending, hquiet⟩ := World.requestWrite_rule h.world hidle hstep
    constructor
    . exact h.of_drain_step rfl hstep hquiet.content_prefix ⟨hresult, hpending⟩
    . exact follows_of_input_quiet .requesting (by simp) hbetween rfl hquiet
  | passWrite hpos =>
    have hbetween : InputWorker.between p.pos = true := by rw [hpos]; rfl
    simp only [InputWorker.Holds, hpos] at hin
    obtain ⟨hresult, hpending⟩ := hin
    obtain ⟨hrequested, heos, hquiet⟩ := World.passWrite_rule h.world hpending hsize hstep
    cases hrequested with
    | granted data n hn _ hcall =>
      have hresume : p.resume (.granted data n) = { p with pos := .reading data n 0 } := by
        simp only [InputWorker.resume, Nat.ne_of_gt hn, ↓reduceIte]
      rw [hresume]
      constructor
      . exact h.of_drain_step rfl hstep hquiet.content_prefix ⟨hresult, hcall, Nat.zero_le _, rfl⟩
      . exact follows_of_input_quiet (.reading data n 0) (by simp) hbetween rfl hquiet
    | ended hcall =>
      constructor
      . exact h.of_drain_step rfl hstep hquiet.content_prefix trivial
      . exact follows_of_input_stop p.result (by simp) hbetween hquiet fun _ => .inr (heos rfl)
    | slept hcall =>
      constructor
      . exact h.of_drain_step rfl hstep hquiet.content_prefix ⟨hresult, hcall⟩
      . exact follows_of_input_quiet .requesting (by simp) hbetween rfl hquiet
  | wakeWrite hpos =>
    have hbetween : InputWorker.between p.pos = true := by rw [hpos]; rfl
    simp only [InputWorker.Holds, hpos] at hin
    obtain ⟨hresult, hpending⟩ := hin
    obtain ⟨rfl, hpending', hquiet⟩ := World.wakeWrite_rule h.world hpending hstep
    constructor
    . exact h.of_drain_step rfl hstep hquiet.content_prefix ⟨hresult, hpending'⟩
    . exact follows_of_input_quiet .requesting (by simp) hbetween rfl hquiet
  | failWrite hpos =>
    simp only [InputWorker.Holds, hpos] at hin
    obtain ⟨hresult, _⟩ := hin
    obtain ⟨rfl, hidle, hquiet⟩ := World.failWrite_rule h.world hstep
    constructor
    . exact h.of_drain_step rfl hstep hquiet.content_prefix trivial
    . apply Follows.fails rfl
      . simp [flow, Pipeline.Enabled, InputWorker.inFlight, InputWorker.stage, hpos]
      . simp [flow, Pipeline.next, InputWorker.resume, InputWorker.inFlight, InputWorker.stage, hpos,
          hresult, hquiet.content, hquiet.eos]
  | store buf len n b hpos hb hn =>
    have hbetween : InputWorker.between p.pos = true := by rw [hpos]; rfl
    simp only [InputWorker.Holds, hpos] at hin
    obtain ⟨hresult, hholding, hle, hslice⟩ := hin
    obtain ⟨rfl, hholding', hslice', hquiet⟩ := World.store_rule h.world hholding hn hstep
    have htake : p.stream.take (n + 1) = p.stream.take n ++ [b] := by
      rw [List.take_add_one, hb, Option.toList_some]
    constructor
    . apply h.of_drain_step rfl hstep hquiet.content_prefix
      refine ⟨hresult, hholding', hn, ?_⟩
      rw [hslice', hslice, htake]
    . exact follows_of_input_quiet (.reading buf len (n + 1)) (by simp) hbetween rfl hquiet
  | commitWrite buf len hpos =>
    simp only [InputWorker.Holds, hpos] at hin
    obtain ⟨hresult, n, hholding, hle⟩ := hin
    obtain ⟨rfl, hidle, hcontent, heos⟩ := World.commitWrite_rule h.world hholding hle hstep
    have hprefix : w.content <+: w'.content := by
      rw [hcontent]
      apply List.prefix_append
    have hout := h.output.outFlight_frame h.world hprefix
    rw [hcontent] at hout
    constructor
    . exact h.of_drain_step rfl hstep hprefix ⟨hresult, hidle⟩
    . apply Follows.moves .write
      . simp
      . simp [flow, Pipeline.Enabled, InputWorker.stage, hpos]
      . exact fun _ => trivial
      . simp only [flow, Pipeline.next, InputWorker.resumeCommit, InputWorker.inFlight,
          InputWorker.stage, hpos, hout, hcontent, heos]
  | endWrite hpos =>
    obtain ⟨rfl, _, hcontent, heos⟩ := World.endWrite_rule h.world hstep
    constructor
    . apply h.of_drain_step rfl hstep
      . rw [hcontent]
      . trivial
    . apply Follows.moves (.endInput p.result)
      . simp
      . simp [flow, Pipeline.Enabled, InputWorker.stage, hpos]
      . exact fun _ => trivial
      . simp [flow, Pipeline.next, InputWorker.inFlight, InputWorker.stage, hpos, hcontent, heos]

theorem input_not_threw (hsize : 0 < requestSize) (h : Inv requestSize w p q) {a : Operation} {e : Event}
    {resume : Event → InputWorker} (hmove : p.move requestSize x = some (.call a resume))
    (hstep : w.step a = some (w', e)) : ∀ err, e ≠ .threw err := by
  have hin := h.input
  cases InputWorker.move_cases hmove with
  | requestWrite hpos =>
    simp only [InputWorker.Holds, hpos] at hin
    obtain ⟨rfl, _⟩ := World.requestWrite_rule h.world hin.2 hstep
    simp
  | passWrite hpos =>
    simp only [InputWorker.Holds, hpos] at hin
    obtain ⟨hrequested, _⟩ := World.passWrite_rule h.world hin.2 hsize hstep
    cases hrequested <;> simp
  | wakeWrite hpos =>
    simp only [InputWorker.Holds, hpos] at hin
    obtain ⟨rfl, _⟩ := World.wakeWrite_rule h.world hin.2 hstep
    simp
  | failWrite hpos =>
    obtain ⟨rfl, _⟩ := World.failWrite_rule h.world hstep
    simp
  | store buf len n b hpos hb hn =>
    simp only [InputWorker.Holds, hpos] at hin
    obtain ⟨rfl, _⟩ := World.store_rule h.world hin.2.1 hn hstep
    simp
  | commitWrite buf len hpos =>
    simp only [InputWorker.Holds, hpos] at hin
    obtain ⟨_, n, hholding, hle⟩ := hin
    obtain ⟨rfl, _⟩ := World.commitWrite_rule h.world hholding hle hstep
    simp
  | endWrite hpos =>
    obtain ⟨rfl, _⟩ := World.endWrite_rule h.world hstep
    simp

end Input

section Output

variable {requestSize : Nat} {w w' : World c} {p : InputWorker} {q q' : OutputWorker} {x : Choice}

theorem output_handle_ne_zero {e : Exception} (he : e ≠ .interrupt) : (q.handle e).result ≠ 0 := by
  cases e <;> simp [OutputWorker.handle] at he ⊢

theorem Inv.of_source_step (h : Inv requestSize w p q) (q' : OutputWorker) {a : Operation} {e : Event}
    (hside : a.side = .source) (hstep : w.step a = some (w', e)) (hholds : q'.Holds requestSize w') :
    Inv requestSize w' p q' ∧ w'.fifo.buffer = w.fifo.buffer := by
  obtain ⟨⟨notify, hdrain⟩, hbuffer⟩ := World.drain_frame h.world hside hstep
  exact ⟨⟨h.world.step hstep, h.input.frame hdrain hbuffer, hholds⟩, hbuffer⟩

theorem follows_of_output_quiet (pos : OutputPos) (hx : x ≠ .waitFails)
    (hpos : OutputWorker.between q.pos = true) (hpos' : OutputWorker.between pos = true)
    (hbuffer : w'.fifo.buffer = w.fifo.buffer) (hquiet : World.Quiet w w') :
    Follows .failOutput x (flow w p q) (flow w' p { q with pos }) := by
  have hstage : ({ q with pos } : OutputWorker).stage = .running := OutputWorker.stage_of_between hpos'
  have houtFlight : ({ q with pos } : OutputWorker).outFlight w.content = [] :=
    OutputWorker.outFlight_of_between hpos' _
  apply Follows.idle hx
  simp only [flow, hbuffer, hstage, houtFlight, OutputWorker.stage_of_between hpos,
    OutputWorker.outFlight_of_between hpos, hquiet.content, hquiet.eos]

theorem follows_of_output_stop (result : Nat) (hx : x ≠ .waitFails)
    (hpos : OutputWorker.between q.pos = true) (hbuffer : w'.fifo.buffer = w.fifo.buffer)
    (hquiet : World.Quiet w w') (hreason : result = 0 → w.content = [] ∧ w.fifo.eos = true) :
    Follows .failOutput x (flow w p q) (flow w' p { q with pos := .endRead, result }) := by
  have houtFlight := OutputWorker.outFlight_of_between hpos
  apply Follows.moves (.stopOutput result) hx
  . exact ⟨OutputWorker.stage_of_between hpos, houtFlight _, hreason⟩
  . exact fun _ => trivial
  . simp only [flow, Pipeline.next, houtFlight, hbuffer, hquiet.content, hquiet.eos]
    rfl

theorem follows_of_output_throw {e : Exception} (hx : x ≠ .waitFails) (he : e ≠ .interrupt)
    (hpos : OutputWorker.between q.pos = true) :
    Follows .failOutput x (flow w p q) (flow w p (q.handle e)) := by
  apply follows_of_output_stop _ hx hpos rfl ⟨rfl, rfl⟩
  intro hresult
  exact absurd hresult (output_handle_ne_zero he)

theorem output_own (h : Inv requestSize w p q) (hx : x ≠ .throws .interrupt)
    (hmove : q.move requestSize w.fifo.buffer x = some (.own q')) :
    Inv requestSize w p q' ∧ Follows .failOutput x (flow w p q) (flow w p q') := by
  have hout := h.output
  have hquiet : World.Quiet w w := ⟨rfl, rfl⟩
  cases OutputWorker.move_cases hmove with
  | initialized hpos =>
    simp only [OutputWorker.Holds, hpos] at hout
    constructor
    . exact ⟨h.world, h.input, hout⟩
    . exact follows_of_output_quiet .request (by simp) (by rw [hpos]; rfl) rfl rfl hquiet
  | initializeThrew e hpos =>
    constructor
    . exact ⟨h.world, h.input, trivial⟩
    . exact follows_of_output_throw (by simp) (fun he => hx (by rw [he])) (by rw [hpos]; rfl)
  | load buf len bytes hpos hlen =>
    simp only [OutputWorker.Holds, hpos] at hout
    obtain ⟨hresult, hholding, hle, hbytes⟩ := hout
    constructor
    . refine ⟨h.world, h.input, hresult, hholding, ?_, ?_⟩
      . rw [List.length_append, List.length_singleton]
        exact hlen
      . rw [List.length_append, List.length_singleton, World.load_rule h.world hholding hlen, ← hbytes]
    . exact follows_of_output_quiet (.writing buf len _) (by simp) (by rw [hpos]; rfl) rfl rfl hquiet
  | writeRefused buf len hpos =>
    constructor
    . exact ⟨h.world, h.input, trivial⟩
    . exact follows_of_output_throw (by simp) (by simp) (by rw [hpos]; rfl)
  | writeData buf len bytes hpos hnil =>
    simp only [OutputWorker.Holds, hpos] at hout
    obtain ⟨hresult, hholding, hle, hbytes⟩ := hout
    constructor
    . exact ⟨h.world, h.input, hresult, len, hholding, hle⟩
    . apply Follows.moves (.accept bytes.length)
      . simp
      . simp [flow, Pipeline.Enabled, OutputWorker.outFlight, OutputWorker.stage, hpos]
      . exact fun _ => trivial
      . simp [flow, Pipeline.next, OutputWorker.outFlight, OutputWorker.stage, hpos, ← hbytes]
  | writeThrew buf len bytes e hpos =>
    constructor
    . exact ⟨h.world, h.input, trivial⟩
    . exact follows_of_output_throw (by simp) (fun he => hx (by rw [he])) (by rw [hpos]; rfl)

theorem output_call (hsize : 0 < requestSize) (h : Inv requestSize w p q) {a : Operation} {e : Event}
    {resume : Event → OutputWorker}
    (hmove : q.move requestSize w.fifo.buffer x = some (.call a resume))
    (hstep : w.step a = some (w', e)) :
    Inv requestSize w' p (resume e) ∧ Follows .failOutput x (flow w p q) (flow w' p (resume e)) := by
  have hout := h.output
  cases OutputWorker.move_cases hmove with
  | requestRead hpos =>
    have hbetween : OutputWorker.between q.pos = true := by rw [hpos]; rfl
    simp only [OutputWorker.Holds, hpos] at hout
    obtain ⟨hresult, hidle⟩ := hout
    obtain ⟨rfl, hpending, hquiet⟩ := World.requestRead_rule h.world hidle hstep
    obtain ⟨hinv, hbuffer⟩ := h.of_source_step (q.resume .entered) rfl hstep ⟨hresult, hpending⟩
    constructor
    . exact hinv
    . exact follows_of_output_quiet .requesting (by simp) hbetween rfl hbuffer hquiet
  | passRead hpos =>
    have hbetween : OutputWorker.between q.pos = true := by rw [hpos]; rfl
    simp only [OutputWorker.Holds, hpos] at hout
    obtain ⟨hresult, hpending⟩ := hout
    obtain ⟨hrequested, heos, hquiet⟩ := World.passRead_rule h.world hpending hsize hstep
    cases hrequested with
    | granted data n hn _ hcall =>
      have hresume : q.resume (.granted data n) = { q with pos := .writing data n [] } := by
        simp only [OutputWorker.resume, Nat.ne_of_gt hn, ↓reduceIte]
      rw [hresume]
      obtain ⟨hinv, hbuffer⟩ := h.of_source_step ({ q with pos := .writing data n [] }) rfl hstep
        ⟨hresult, hcall, Nat.zero_le _, rfl⟩
      constructor
      . exact hinv
      . exact follows_of_output_quiet (.writing data n []) (by simp) hbetween rfl hbuffer hquiet
    | ended hcall =>
      obtain ⟨hinv, hbuffer⟩ := h.of_source_step (q.resume .ended) rfl hstep trivial
      constructor
      . exact hinv
      . exact follows_of_output_stop q.result (by simp) hbetween hbuffer hquiet fun _ => heos rfl
    | slept hcall =>
      obtain ⟨hinv, hbuffer⟩ := h.of_source_step (q.resume .slept) rfl hstep ⟨hresult, hcall⟩
      constructor
      . exact hinv
      . exact follows_of_output_quiet .requesting (by simp) hbetween rfl hbuffer hquiet
  | wakeRead hpos =>
    have hbetween : OutputWorker.between q.pos = true := by rw [hpos]; rfl
    simp only [OutputWorker.Holds, hpos] at hout
    obtain ⟨hresult, hpending⟩ := hout
    obtain ⟨rfl, hpending', hquiet⟩ := World.wakeRead_rule h.world hpending hstep
    obtain ⟨hinv, hbuffer⟩ := h.of_source_step (q.resume .woken) rfl hstep ⟨hresult, hpending'⟩
    constructor
    . exact hinv
    . exact follows_of_output_quiet .requesting (by simp) hbetween rfl hbuffer hquiet
  | failRead hpos =>
    simp only [OutputWorker.Holds, hpos] at hout
    obtain ⟨hresult, _⟩ := hout
    obtain ⟨rfl, hidle, hquiet⟩ := World.failRead_rule h.world hstep
    obtain ⟨hinv, hbuffer⟩ := h.of_source_step (q.resume .ended) rfl hstep trivial
    constructor
    . exact hinv
    . apply Follows.fails rfl
      . simp [flow, Pipeline.Enabled, OutputWorker.outFlight, OutputWorker.stage, hpos]
      . simp [flow, Pipeline.next, OutputWorker.resume, OutputWorker.outFlight, OutputWorker.stage,
          hpos, hresult, hbuffer, hquiet.content, hquiet.eos]
  | commitRead buf len hpos =>
    simp only [OutputWorker.Holds, hpos] at hout
    obtain ⟨hresult, n, hholding, hle⟩ := hout
    obtain ⟨rfl, hidle, hcontent, heos⟩ := World.commitRead_rule h.world hholding hle hstep
    obtain ⟨hinv, hbuffer⟩ := h.of_source_step ({ q with pos := .request }) rfl hstep
      ⟨hresult, hidle⟩
    constructor
    . exact hinv
    . apply Follows.moves .read
      . simp
      . simp [flow, Pipeline.Enabled, OutputWorker.stage, hpos]
      . exact fun _ => trivial
      . simp [flow, Pipeline.next, OutputWorker.resumeCommit, OutputWorker.outFlight,
          OutputWorker.stage, hpos, hbuffer, hcontent, heos]
  | endRead hpos =>
    obtain ⟨rfl, _, hcontent, heos⟩ := World.endRead_rule h.world hstep
    obtain ⟨hinv, hbuffer⟩ := h.of_source_step ({ q with pos := .done }) rfl hstep trivial
    constructor
    . exact hinv
    . apply Follows.moves (.endOutput q.result)
      . simp
      . simp [flow, Pipeline.Enabled, OutputWorker.stage, hpos]
      . exact fun _ => trivial
      . simp [flow, Pipeline.next, OutputWorker.outFlight, OutputWorker.stage, hpos, hbuffer, hcontent,
          heos]

theorem output_not_threw (hsize : 0 < requestSize) (h : Inv requestSize w p q) {a : Operation} {e : Event}
    {resume : Event → OutputWorker}
    (hmove : q.move requestSize w.fifo.buffer x = some (.call a resume))
    (hstep : w.step a = some (w', e)) : ∀ err, e ≠ .threw err := by
  have hout := h.output
  cases OutputWorker.move_cases hmove with
  | requestRead hpos =>
    simp only [OutputWorker.Holds, hpos] at hout
    obtain ⟨rfl, _⟩ := World.requestRead_rule h.world hout.2 hstep
    simp
  | passRead hpos =>
    simp only [OutputWorker.Holds, hpos] at hout
    obtain ⟨hrequested, _⟩ := World.passRead_rule h.world hout.2 hsize hstep
    cases hrequested <;> simp
  | wakeRead hpos =>
    simp only [OutputWorker.Holds, hpos] at hout
    obtain ⟨rfl, _⟩ := World.wakeRead_rule h.world hout.2 hstep
    simp
  | failRead hpos =>
    obtain ⟨rfl, _⟩ := World.failRead_rule h.world hstep
    simp
  | commitRead buf len hpos =>
    simp only [OutputWorker.Holds, hpos] at hout
    obtain ⟨_, n, hholding, hle⟩ := hout
    obtain ⟨rfl, _⟩ := World.commitRead_rule h.world hholding hle hstep
    simp
  | endRead hpos =>
    obtain ⟨rfl, _⟩ := World.endRead_rule h.world hstep
    simp

end Output

section System

variable {requestSize : Nat} {s s' : Workers c} {x : Choice ⊕ Choice} {l : Option (Operation × Event)}

def pipeline (s : Workers c) : Pipeline UInt8 := flow s.shared s.left s.right

def choice (x : Choice ⊕ Choice) : Choice := x.elim id id

def failOp (x : Choice ⊕ Choice) : Pipeline.Op :=
  x.elim (fun _ => .failInput) (fun _ => .failOutput)

theorem inv_init (c : Layout) (requestSize : Nat) (stream : List UInt8) :
    Inv requestSize (init c stream).shared (init c stream).left (init c stream).right where
  world := World.inv_init c
  input := ⟨rfl, rfl⟩
  output := ⟨rfl, rfl⟩

theorem follows (hsize : 0 < requestSize) (h : Inv requestSize s.shared s.left s.right)
    (hx : choice x ≠ .throws .interrupt) (hstep : (machine c requestSize).step s x = some (s', l)) :
    Inv requestSize s'.shared s'.left s'.right ∧
      Follows (failOp x) (choice x) s.pipeline s'.pipeline := by
  unfold pipeline
  cases x with
  | inl x =>
    obtain ⟨hprogram, hright⟩ := Machine.compose_inl hstep
    rw [hright]
    generalize s'.shared = w', s'.left = p' at hprogram
    cases hprogram with
    | own hmove => exact input_own h hx hmove
    | call hmove hcall => exact input_call hsize h hmove hcall
  | inr x =>
    obtain ⟨hprogram, hleft⟩ := Machine.compose_inr hstep
    rw [hleft]
    generalize s'.shared = w', s'.right = q' at hprogram
    cases hprogram with
    | own hmove => exact output_own h hx hmove
    | call hmove hcall => exact output_call hsize h hmove hcall

end System

end Workers
