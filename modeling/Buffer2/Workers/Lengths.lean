import Buffer2.Fifo.Lengths
import Buffer2.Workers.Statistics

/-!
This module contains what becomes of a transfer with an extreme request size: one from the buffer size on,
and 0.
-/

theorem InputWorker.move_ask (requestSize len : Nat) (p : InputWorker) (x : Choice) :
    p.move len x = (p.move requestSize x).map (Move.rename (Operation.ask len)) := by
  unfold move
  split <;> try rfl
  . split
    . split <;> rfl
    . rfl
  . split
    . rfl
    . split <;> rfl

theorem OutputWorker.move_ask (requestSize len : Nat) (buffer : Nat → UInt8) (q : OutputWorker) (x : Choice) :
    q.move len buffer x = (q.move requestSize buffer x).map (Move.rename (Operation.ask len)) := by
  unfold move
  split <;> try rfl
  . split <;> rfl
  . split <;> rfl

namespace Workers

variable {c : Layout} {requestSize len : Nat} {stream : List UInt8} {s s' : Workers c}
variable {x : Choice ⊕ Choice} {l : Option (Operation × Event)}
variable {tr : List ((Choice ⊕ Choice) × Option (Operation × Event))}

theorem requests_of_move {P : Nat → Prop} {a : Operation} {e : Event} (hP : P requestSize)
    (hstep : (machine c requestSize).step s x = some (s', some (a, e))) : World.Requests P a := by
  cases x with
  | inl x =>
    obtain ⟨resume, hmove⟩ := (Machine.compose_inl hstep).1.exists_move
    cases InputWorker.move_cases hmove with
    | requestWrite => exact hP
    | _ => trivial
  | inr x =>
    obtain ⟨resume, hmove⟩ := (Machine.compose_inr hstep).1.exists_move
    cases OutputWorker.move_cases hmove with
    | requestRead => exact hP
    | _ => trivial

theorem asking_step {P : Nat → Prop} (hP : P requestSize) (hinv : s.shared.Inv) (h : s.shared.Asking P)
    (hstep : (machine c requestSize).step s x = some (s', l)) : s'.shared.Inv ∧ s'.shared.Asking P := by
  have hperforms := Machine.compose_performs hstep
  cases l with
  | none =>
    rw [show s'.shared = s.shared from hperforms]
    exact ⟨hinv, h⟩
  | some y =>
    have hcall : s.shared.step y.1 = some (s'.shared, y.2) := hperforms
    exact ⟨hinv.step hcall, h.of_step (requests_of_move hP hstep) (World.step_cases hinv hcall)⟩

section Large

def ask (len : Nat) (s : Workers c) : Workers c := { s with shared := s.shared.ask len }

def askStep (len : Nat) (x : (Choice ⊕ Choice) × Option (Operation × Event)) :
    (Choice ⊕ Choice) × Option (Operation × Event) :=
  (x.1, x.2.map (Prod.map (Operation.ask len) id))

theorem step_ask (requestSize : Nat) (hinv : s.shared.Inv) (hlarge : s.shared.Asking (c.bufferSize ≤ ·))
    (hlen : c.bufferSize ≤ len) (x : Choice ⊕ Choice) :
    (machine c len).step (s.ask len) x =
      ((machine c requestSize).step s x).map
        (Prod.map (ask len) (Option.map (Prod.map (Operation.ask len) id))) := by
  apply Machine.compose_rename
  . rfl
  . exact InputWorker.move_ask requestSize len s.left
  . exact OutputWorker.move_ask requestSize len s.shared.fifo.buffer s.right
  . exact World.step_ask hinv hlarge hlen

theorem runs_ask (hsize : c.bufferSize ≤ requestSize) (hlen : c.bufferSize ≤ len)
    (hruns : (machine c requestSize).Runs Machine.always (init c stream) tr s) :
    (machine c len).Runs Machine.always (init c stream) (tr.map (askStep len)) (s.ask len) := by
  show (machine c len).Runs Machine.always ((init c stream).ask len) _ _
  apply hruns.rename (I := fun s => s.shared.Inv ∧ s.shared.Asking (c.bufferSize ≤ ·)) (ask len)
    (askStep len)
  . rintro s x s' l ⟨hinv, hlarge⟩ _ hstep
    exact asking_step hsize hinv hlarge hstep
  . exact fun _ _ _ _ _ => trivial
  . rintro s x s' l ⟨hinv, hlarge⟩ _ hstep
    have hask := step_ask requestSize hinv hlarge hlen x
    rw [hstep] at hask
    exact hask
  . exact ⟨World.inv_init c, World.asking_init c _⟩

/--
The schedule `xs` of the transfer can be made, and ends with the FIFO and the workers like this.
-/
def Reaches (c : Layout) (requestSize : Nat) (stream : List UInt8) (xs : List (Choice ⊕ Choice))
    (f : StaticFIFO c) (p : InputWorker) (q : OutputWorker) : Prop :=
  ∃ tr s, (machine c requestSize).Runs Machine.always (init c stream) tr s ∧ tr.map Prod.fst = xs ∧
    s.shared.fifo = f ∧ s.left = p ∧ s.right = q

theorem Reaches.of_large {xs : List (Choice ⊕ Choice)} {f : StaticFIFO c} {p : InputWorker}
    {q : OutputWorker} (hsize : c.bufferSize ≤ requestSize) (hlen : c.bufferSize ≤ len)
    (h : Reaches c requestSize stream xs f p q) : Reaches c len stream xs f p q := by
  obtain ⟨tr, s, hruns, rfl, rfl, rfl, rfl⟩ := h
  refine ⟨tr.map (askStep len), s.ask len, runs_ask hsize hlen hruns, ?_, rfl, rfl, rfl⟩
  rw [List.map_map]
  rfl

/--
Request sizes beyond the buffer size have no effect.
-/
theorem reaches_iff_of_large (hsize : c.bufferSize ≤ requestSize) (hlen : c.bufferSize ≤ len)
    (xs : List (Choice ⊕ Choice)) (f : StaticFIFO c) (p : InputWorker) (q : OutputWorker) :
    Reaches c requestSize stream xs f p q ↔ Reaches c len stream xs f p q :=
  ⟨.of_large hsize hlen, .of_large hlen hsize⟩

theorem reaches_iff_of_large_oneByte :
    Reaches .oneByte 1 [7] [.inl .run, .inl .run, .inl .run]
        { StaticFIFO.init .oneByte with wrReq := 1 }
        { InputWorker.init [7] with pos := .reading 4096 1 0 } .init ↔
      Reaches .oneByte 1000 [7] [.inl .run, .inl .run, .inl .run]
        { StaticFIFO.init .oneByte with wrReq := 1 }
        { InputWorker.init [7] with pos := .reading 4096 1 0 } .init :=
  reaches_iff_of_large (by decide) (by decide) _ _ _ _

end Large

section Zero

def Asks (p : InputWorker) : Prop :=
  match p.pos with
  | .reading _ _ _ | .commit _ _ => False
  | _ => True

def Waits (q : OutputWorker) : Prop :=
  match q.pos with
  | .writing _ _ _ | .commit _ _ => False
  | _ => True

/--
What the workers keep to when they request 0 bytes: no range is ever granted to one of them.
-/
structure Barren (stream : List UInt8) (w : World c) (p : InputWorker) (q : OutputWorker) : Prop where
  inv : Inv 0 w p q
  level : w.fifo.level = 0
  asks : Asks p
  stream_eq : p.stream = stream
  delivered_eq : p.delivered = []
  waits : Waits q
  accepted_eq : q.accepted = []

variable {w w' : World c} {p p' : InputWorker} {q q' : OutputWorker}

theorem barren_init (c : Layout) (stream : List UInt8) :
    Barren stream (init c stream).shared (init c stream).left (init c stream).right where
  inv := inv_init c 0 stream
  level := rfl
  asks := trivial
  stream_eq := rfl
  delivered_eq := rfl
  waits := trivial
  accepted_eq := rfl

theorem barren_input {pos : InputPos} {result : Nat} {a : Operation} {e : Event}
    (h : Barren stream w p q) (hside : a.side = .drain) (hstep : w.step a = some (w', e))
    (hquiet : World.Quiet w w') (hasks : Asks { p with pos, result })
    (hholds : ({ p with pos, result } : InputWorker).Holds 0 w') :
    Barren stream w' { p with pos, result } q :=
  { h with
    inv := h.inv.of_drain_step hside hstep hquiet.content_prefix hholds
    level := hquiet.level.trans h.level
    asks := hasks }

theorem barren_input_own {x : Choice} (h : Barren stream w p q)
    (hmove : p.move 0 x = some (.own p')) : Barren stream w p' q := by
  have hin := h.inv.input
  have hasks := h.asks
  cases InputWorker.move_cases hmove with
  | initialized hpos =>
    simp only [InputWorker.Holds, hpos] at hin
    exact { h with inv := ⟨h.inv.world, hin, h.inv.output⟩, asks := trivial }
  | initializeThrew e hpos =>
    exact { h with inv := ⟨h.inv.world, trivial, h.inv.output⟩, asks := trivial }
  | readData _ _ _ hpos | endOfStream _ _ hpos | readThrew _ _ _ _ hpos => simp [Asks, hpos] at hasks

theorem barren_input_call {x : Choice} {a : Operation} {e : Event} {resume : Event → InputWorker}
    (h : Barren stream w p q) (hmove : p.move 0 x = some (.call a resume))
    (hstep : w.step a = some (w', e)) :
    Barren stream w' (resume e) q ∧ (resume e).result = p.result := by
  have hin := h.inv.input
  have hasks := h.asks
  cases InputWorker.move_cases hmove with
  | requestWrite hpos =>
    simp only [InputWorker.Holds, hpos] at hin
    obtain ⟨rfl, hpending, hquiet⟩ := World.requestWrite_rule h.inv.world hin.2 hstep
    exact ⟨barren_input h rfl hstep hquiet trivial ⟨hin.1, hpending⟩, rfl⟩
  | passWrite hpos =>
    simp only [InputWorker.Holds, hpos] at hin
    cases World.step_cases h.inv.world hstep with
    | writeEnded => exact ⟨barren_input h rfl hstep ⟨rfl, rfl⟩ trivial trivial, rfl⟩
    | writeGranted len hready =>
      have hzero := hin.2
      rw [Call.pending_of_ready hready, Option.some.injEq] at hzero
      subst hzero
      have hgrant : w.fifo.writeGrant 0 = 0 := by simp [StaticFIFO.writeGrant]
      have hresume :
          p.resume (.granted w.fifo.wrPos (w.fifo.writeGrant 0)) = { p with pos := .endWrite } := by
        simp [InputWorker.resume, hgrant]
      rw [hresume]
      exact ⟨barren_input h rfl hstep ⟨rfl, rfl⟩ trivial trivial, rfl⟩
    | writeSlept len hready =>
      rw [Call.pending_of_ready hready] at hin
      exact ⟨barren_input h rfl hstep ⟨rfl, rfl⟩ trivial hin, rfl⟩
  | wakeWrite hpos =>
    simp only [InputWorker.Holds, hpos] at hin
    obtain ⟨rfl, hpending, hquiet⟩ := World.wakeWrite_rule h.inv.world hin.2 hstep
    exact ⟨barren_input h rfl hstep hquiet trivial ⟨hin.1, hpending⟩, rfl⟩
  | failWrite hpos =>
    obtain ⟨rfl, _, hquiet⟩ := World.failWrite_rule h.inv.world hstep
    exact ⟨barren_input h rfl hstep hquiet trivial trivial, rfl⟩
  | store _ _ _ _ hpos | commitWrite _ _ hpos => simp [Asks, hpos] at hasks
  | endWrite hpos =>
    obtain ⟨rfl, _, hcontent, _⟩ := World.endWrite_rule h.inv.world hstep
    have hlevel : w'.fifo.level = w.fifo.level := by
      rw [← World.length_content w', hcontent, World.length_content]
    refine ⟨{ h with inv := ?_, level := hlevel.trans h.level, asks := trivial }, rfl⟩
    exact h.inv.of_drain_step rfl hstep (by rw [hcontent]) trivial

theorem barren_output {pos : OutputPos} {result : Nat} {a : Operation} {e : Event}
    (h : Barren stream w p q) (hside : a.side = .source) (hstep : w.step a = some (w', e))
    (hlevel : w'.fifo.level = w.fifo.level) (hwaits : Waits { q with pos, result })
    (hholds : ({ q with pos, result } : OutputWorker).Holds 0 w') :
    Barren stream w' p { q with pos, result } :=
  { h with
    inv := (h.inv.of_source_step _ hside hstep hholds).1
    level := hlevel.trans h.level
    waits := hwaits }

theorem barren_output_own {x : Choice} (h : Barren stream w p q)
    (hmove : q.move 0 w.fifo.buffer x = some (.own q')) : Barren stream w p q' := by
  have hout := h.inv.output
  have hwaits := h.waits
  cases OutputWorker.move_cases hmove with
  | initialized hpos =>
    simp only [OutputWorker.Holds, hpos] at hout
    exact { h with inv := ⟨h.inv.world, h.inv.input, hout⟩, waits := trivial }
  | initializeThrew e hpos =>
    exact { h with inv := ⟨h.inv.world, h.inv.input, trivial⟩, waits := trivial }
  | load _ _ _ hpos | writeRefused _ _ hpos | writeData _ _ _ hpos | writeThrew _ _ _ _ hpos =>
    simp [Waits, hpos] at hwaits

theorem barren_output_call {x : Choice} {a : Operation} {e : Event} {resume : Event → OutputWorker}
    (h : Barren stream w p q) (hmove : q.move 0 w.fifo.buffer x = some (.call a resume))
    (hstep : w.step a = some (w', e)) :
    Barren stream w' p (resume e) ∧ (resume e).result = q.result := by
  have hout := h.inv.output
  have hwaits := h.waits
  have hlevel := h.level
  cases OutputWorker.move_cases hmove with
  | requestRead hpos =>
    simp only [OutputWorker.Holds, hpos] at hout
    obtain ⟨rfl, hpending, hquiet⟩ := World.requestRead_rule h.inv.world hout.2 hstep
    exact ⟨barren_output h rfl hstep hquiet.level trivial ⟨hout.1, hpending⟩, rfl⟩
  | passRead hpos =>
    simp only [OutputWorker.Holds, hpos] at hout
    cases World.step_cases h.inv.world hstep with
    | readGranted _ _ hpos => omega
    | readEnded => exact ⟨barren_output h rfl hstep rfl trivial trivial, rfl⟩
    | readSlept len hready =>
      rw [Call.pending_of_ready hready] at hout
      exact ⟨barren_output h rfl hstep rfl trivial hout, rfl⟩
  | wakeRead hpos =>
    simp only [OutputWorker.Holds, hpos] at hout
    obtain ⟨rfl, hpending, hquiet⟩ := World.wakeRead_rule h.inv.world hout.2 hstep
    exact ⟨barren_output h rfl hstep hquiet.level trivial ⟨hout.1, hpending⟩, rfl⟩
  | failRead hpos =>
    obtain ⟨rfl, _, hquiet⟩ := World.failRead_rule h.inv.world hstep
    exact ⟨barren_output h rfl hstep hquiet.level trivial trivial, rfl⟩
  | commitRead _ _ hpos => simp [Waits, hpos] at hwaits
  | endRead hpos =>
    obtain ⟨rfl, _, hcontent, _⟩ := World.endRead_rule h.inv.world hstep
    have hlevel : w'.fifo.level = w.fifo.level := by
      rw [← World.length_content w', hcontent, World.length_content]
    exact ⟨barren_output h rfl hstep hlevel trivial trivial, rfl⟩

theorem barren_step (h : Barren stream s.shared s.left s.right)
    (hstep : (machine c 0).step s x = some (s', l)) :
    Barren stream s'.shared s'.left s'.right ∧
      (s.NoError x → s'.left.result = s.left.result ∧ s'.right.result = s.right.result) := by
  cases x with
  | inl x =>
    obtain ⟨hprogram, hright⟩ := Machine.compose_inl hstep
    rw [hright]
    generalize s'.shared = w', s'.left = p' at hprogram
    cases hprogram with
    | own hmove =>
      refine ⟨barren_input_own h hmove, fun hx => ⟨?_, rfl⟩⟩
      cases InputWorker.move_cases hmove with
      | initializeThrew e | readThrew _ _ _ e => exact absurd rfl (hx.1 e)
      | _ => rfl
    | call hmove hcall =>
      obtain ⟨hbarren, hresult⟩ := barren_input_call h hmove hcall
      exact ⟨hbarren, fun _ => ⟨hresult, rfl⟩⟩
  | inr x =>
    obtain ⟨hprogram, hleft⟩ := Machine.compose_inr hstep
    rw [hleft]
    generalize s'.shared = w', s'.right = q' at hprogram
    cases hprogram with
    | own hmove =>
      have hwaits := h.waits
      refine ⟨barren_output_own h hmove, fun hx => ⟨rfl, ?_⟩⟩
      cases OutputWorker.move_cases hmove with
      | initializeThrew e | writeThrew _ _ _ e => exact absurd rfl (hx.1 e)
      | writeRefused _ _ hpos => simp [Waits, hpos] at hwaits
      | _ => rfl
    | call hmove hcall =>
      obtain ⟨hbarren, hresult⟩ := barren_output_call h hmove hcall
      exact ⟨hbarren, fun _ => ⟨rfl, hresult⟩⟩

theorem barren_of_runs (hruns : (machine c 0).Runs NoError (init c stream) tr s) :
    Barren stream s.shared s.left s.right ∧ s.left.result = 0 ∧ s.right.result = 0 := by
  apply hruns.invariant (I := fun s => Barren stream s.shared s.left s.right ∧
    s.left.result = 0 ∧ s.right.result = 0)
  . rintro s x s' l ⟨hbarren, hleft, hright⟩ hx hstep
    obtain ⟨hbarren', hresult⟩ := barren_step hbarren hstep
    obtain ⟨hleft', hright'⟩ := hresult hx
    exact ⟨hbarren', hleft'.trans hleft, hright'.trans hright⟩
  . exact ⟨barren_init c stream, rfl, rfl⟩

theorem passWrite_zero {w : World c} (h : w.fifo = .init c) :
    w.passWrite 0 = ({ w with drain := .holding c.bufferBegin 0 }, .granted c.bufferBegin 0) := by
  have hpass : (StaticFIFO.init c).requestWritePass 0 = (.granted c.bufferBegin 0, .init c) := by
    have heq := StaticFIFO.requestWritePass_eq (World.inv_init c).fifo 0
    simp only [World.init] at heq
    rw [heq]
    simp [StaticFIFO.init, StaticFIFO.writeGrant, StaticFIFO.grantWrite, c.size_pos]
  unfold World.passWrite
  rw [h, hpass]

def idles (x : Choice ⊕ Choice) (pos : OutputPos) : Bool :=
  match x, pos with
  | .inr .run, .writing _ _ [] => false
  | .inl .run, _ => true
  | .inr .run, _ => true
  | _, _ => false

theorem undisturbed_of_idles (h : idles x s.right.pos = true) : s.Undisturbed x := by
  unfold idles at h
  split at h
  . cases h
  . exact ⟨⟨by simp [choice], by simp⟩, by simp [choice]⟩
  . next hne => exact ⟨⟨by simp [choice], fun _ buf len hpos => hne buf len hpos⟩, by simp [choice]⟩
  . cases h

theorem exists_finished_zero (c : Layout) (stream : List UInt8) :
    ∃ tr s, (machine c 0).Runs Undisturbed (init c stream) tr s ∧ s.Finished := by
  let waiting : Workers c :=
    { init c stream with
      shared := { World.init c with drain := .entering 0 }
      left := { InputWorker.init stream with pos := .requesting } }
  let closing : Workers c :=
    { init c stream with
      shared := { World.init c with drain := .holding c.bufferBegin 0 }
      left := { InputWorker.init stream with pos := .endWrite } }
  let initialized : Workers c :=
    { init c stream with left := { InputWorker.init stream with pos := .request } }
  have hrequest : (machine c 0).step initialized (.inl .run) =
      some (waiting, some (.requestWrite 0, .entered)) := rfl
  have hpass : (machine c 0).step waiting (.inl .run) =
      some (closing, some (.passWrite, .granted c.bufferBegin 0)) := by
    simp only [machine, Machine.compose, Machine.programStep, waiting, InputWorker.move, World.machine,
      World.step, Call.ready, Option.map_some]
    rw [passWrite_zero rfl]
    rfl
  have hruns : (machine c 0).Runs Undisturbed (init c stream)
      [(.inl .run, none), (.inl .run, some (.requestWrite 0, .entered)),
        (.inl .run, some (.passWrite, .granted c.bufferBegin 0)),
        (.inl .run, some (.endWrite, .closed)), (.inr .run, none),
        (.inr .run, some (.requestRead 0, .entered)), (.inr .run, some (.passRead, .ended)),
        (.inr .run, some (.endRead, .closed))] _ :=
    .cons (undisturbed_of_idles rfl) rfl <| .cons (undisturbed_of_idles rfl) hrequest <|
    .cons (undisturbed_of_idles rfl) hpass <| .cons (undisturbed_of_idles rfl) rfl <|
    .cons (undisturbed_of_idles rfl) rfl <| .cons (undisturbed_of_idles rfl) rfl <|
    .cons (undisturbed_of_idles rfl) rfl <| .cons (undisturbed_of_idles rfl) rfl <|
    .nil _
  exact ⟨_, _, hruns, rfl, rfl⟩

end Zero

theorem exists_finished (c : Layout) (requestSize : Nat) (stream : List UInt8) :
    ∃ tr s, (machine c requestSize).Runs Undisturbed (init c stream) tr s ∧ s.Finished := by
  by_cases hsize : 0 < requestSize
  . obtain ⟨tr, s, hruns, hfin⟩ := (amortized_proper hsize).exists_final
      (fun s h hfin => exists_step h hfin) (live_init c requestSize stream)
    refine ⟨tr, s, hruns.mono ?_, hfin⟩
    rintro s x ⟨hclean, hx⟩
    refine ⟨hclean, ?_⟩
    obtain hx | hx := hx <;> simp [hx]
  . obtain rfl : requestSize = 0 := by omega
    exact exists_finished_zero c stream

theorem accepted_of_undisturbed (hruns : (machine c requestSize).Runs Undisturbed (init c stream) tr s)
    (hfin : s.Finished) :
    s.exitValue = 0 ∧ s.right.accepted = if 0 < requestSize then stream else [] := by
  have hclean := hruns.mono fun s x h => h.1
  by_cases hsize : 0 < requestSize
  . have hexit := exitValue_of_runs hsize hclean
    have hharm : (machine c requestSize).Runs Harmless (init c stream) tr s :=
      hruns.mono fun s x h => ⟨nothingLeft_of_not_waitFails h.2, h.1.1 _⟩
    rw [if_pos hsize]
    exact ⟨hexit, accepted_eq_stream hsize hharm hfin hexit⟩
  . obtain rfl : requestSize = 0 := by omega
    obtain ⟨hbarren, hleft, hright⟩ := barren_of_runs hclean
    exact ⟨by simp [exitValue, hleft, hright], hbarren.accepted_eq⟩

/--
The request size 0, which is what a buffer of less than 4 bytes gets by default, makes `buffer2` lose the
stream without a word.
-/
theorem copies_iff (hruns : (machine c requestSize).Runs Undisturbed (init c stream) tr s)
    (hfin : s.Finished) :
    s.exitValue = 0 ∧ (s.right.accepted = stream ↔ 0 < requestSize ∨ stream = []) ∧
      (requestSize = 0 → s.left.delivered = [] ∧ s.right.accepted = []) := by
  obtain ⟨hexit, haccepted⟩ := accepted_of_undisturbed hruns hfin
  refine ⟨hexit, ?_, ?_⟩
  . rw [haccepted]
    by_cases hsize : 0 < requestSize <;> simp [hsize, eq_comm]
  . rintro rfl
    have hbarren := (barren_of_runs (hruns.mono fun s x h => h.1)).1
    exact ⟨hbarren.delivered_eq, hbarren.accepted_eq⟩

theorem copies_iff_oneByte :
    ∃ tr s, (machine .oneByte 0).Runs Undisturbed (init .oneByte [7]) tr s ∧ s.Finished ∧
      s.exitValue = 0 ∧ s.right.accepted ≠ [7] := by
  have hruns : (machine .oneByte 0).Runs Undisturbed (init .oneByte [7])
      [(.inl .run, none), (.inl .run, some (.requestWrite 0, .entered)),
        (.inl .run, some (.passWrite, .granted 4096 0)), (.inl .run, some (.endWrite, .closed)),
        (.inr .run, none), (.inr .run, some (.requestRead 0, .entered)),
        (.inr .run, some (.passRead, .ended)), (.inr .run, some (.endRead, .closed))] _ :=
    .cons ⟨⟨nofun, nofun⟩, nofun⟩ rfl <|
    .cons ⟨⟨nofun, nofun⟩, nofun⟩ rfl <|
    .cons ⟨⟨nofun, nofun⟩, nofun⟩ rfl <|
    .cons ⟨⟨nofun, nofun⟩, nofun⟩ rfl <|
    .cons ⟨⟨nofun, nofun⟩, nofun⟩ rfl <|
    .cons ⟨⟨nofun, nofun⟩, nofun⟩ rfl <|
    .cons ⟨⟨nofun, nofun⟩, nofun⟩ rfl <|
    .cons ⟨⟨nofun, nofun⟩, nofun⟩ rfl <|
    .nil _
  have hcopies := copies_iff hruns ⟨rfl, rfl⟩
  refine ⟨_, _, hruns, ⟨rfl, rfl⟩, hcopies.1, ?_⟩
  rw [Ne, hcopies.2.1]
  simp

end Workers
