import Buffer2.Fifo.Steps

/-!
This module contains the proofs about threads that always ask for the same number of bytes: if it
divides the size of the buffer, no request is ever answered with less.
-/

/--
`r` divides everything that a pass of a request looks at.
-/
structure StaticFIFO.Aligned {c : Layout} (r : Nat) (f : StaticFIFO c) : Prop where
  rdOffset : r ∣ f.rdOffset
  wrOffset : r ∣ f.wrOffset
  level : r ∣ f.level

namespace StaticFIFO.Aligned

variable {c : Layout} {r : Nat} {f : StaticFIFO c}

theorem init (c : Layout) (r : Nat) : (StaticFIFO.init c).Aligned r where
  rdOffset := by simp [StaticFIFO.rdOffset]
  wrOffset := by simp [StaticFIFO.wrOffset]
  level := by simp

theorem writeGrant_eq (h : f.Aligned r) (hinv : f.Inv) (hsize : r ∣ c.bufferSize)
    (hlevel : f.level < c.bufferSize) : f.writeGrant r = r := by
  have hend := hinv.wrOffset_lt
  have hfree : r ≤ c.bufferSize - f.level := by
    apply Nat.le_of_dvd
    . omega
    . exact Nat.dvd_sub hsize h.level
  have hrem : r ≤ c.bufferSize - f.wrOffset := by
    apply Nat.le_of_dvd
    . omega
    . exact Nat.dvd_sub hsize h.wrOffset
  unfold writeGrant
  omega

theorem readGrant_eq (h : f.Aligned r) (hinv : f.Inv) (hsize : r ∣ c.bufferSize)
    (hlevel : 0 < f.level) : f.readGrant r = r := by
  have hend := hinv.rdOffset_lt
  have hfull : r ≤ f.level := by
    apply Nat.le_of_dvd
    . exact hlevel
    . exact h.level
  have hrem : r ≤ c.bufferSize - f.rdOffset := by
    apply Nat.le_of_dvd
    . omega
    . exact Nat.dvd_sub hsize h.rdOffset
  unfold readGrant
  omega

theorem wrote (h : f.Aligned r) (hinv : f.Inv) (hsize : r ∣ c.bufferSize) {len : Nat}
    (hdvd : r ∣ len) (hlen : len ≤ f.wrReq) : (f.wrote len).Aligned r where
  rdOffset := h.rdOffset
  wrOffset := by
    rw [hinv.wrote_offset hlen]
    rw [Nat.dvd_mod_iff hsize]
    exact Nat.dvd_add h.wrOffset hdvd
  level := Nat.dvd_add h.level hdvd

theorem took (h : f.Aligned r) (hinv : f.Inv) (hsize : r ∣ c.bufferSize) {len : Nat}
    (hdvd : r ∣ len) (hlen : len ≤ f.rdReq) : (f.took len).Aligned r where
  rdOffset := by
    rw [hinv.took_offset hlen]
    rw [Nat.dvd_mod_iff hsize]
    exact Nat.dvd_add h.rdOffset hdvd
  wrOffset := h.wrOffset
  level := Nat.dvd_sub h.level hdvd

end StaticFIFO.Aligned

namespace World

variable {c : Layout}

/--
Both threads ask for `r` bytes each time and commit all they were granted. They may do anything else
at any time, and `Wait` may fail.
-/
def Whole (r : Nat) (w : World c) (a : Operation) : Prop :=
  match a with
  | .requestWrite len => len = r
  | .commitWrite data len => w.drain = .holding data len
  | .requestRead len => len = r
  | .commitRead data len => w.source = .holding data len
  | _ => True

instance (r : Nat) (w : World c) (a : Operation) : Decidable (w.Whole r a) :=
  match a with
  | .requestWrite len => inferInstanceAs (Decidable (len = r))
  | .commitWrite data len => inferInstanceAs (Decidable (w.drain = .holding data len))
  | .requestRead len => inferInstanceAs (Decidable (len = r))
  | .commitRead data len => inferInstanceAs (Decidable (w.source = .holding data len))
  | .passWrite | .wakeWrite | .failWrite | .store _ _ | .endWrite => .isTrue trivial
  | .passRead | .wakeRead | .failRead | .endRead => .isTrue trivial

/--
The range that a thread holds or waits for has `r` bytes.
-/
def Asks (r : Nat) (call : Call) : Prop :=
  match call with
  | .idle => True
  | .holding _ len | .entering len | .asleep len | .notified len => len = r

@[simp]
theorem asks_notifyAll {r : Nat} {call : Call} : Asks r call.notifyAll ↔ Asks r call := by
  cases call <;> simp [Asks, Call.notifyAll]

@[simp]
theorem asks_notifyIf {r : Nat} {notify : Bool} {call : Call} :
    Asks r (call.notifyIf notify) ↔ Asks r call := by
  cases notify <;> simp [Call.notifyIf]

theorem Asks.of_ready {r len : Nat} {call : Call} (h : Asks r call) (hready : call.ready = some len) :
    len = r := by
  cases call <;> simp_all [Asks, Call.ready]

def WholeGrant (c : Layout) (r : Nat) (e : Event) : Prop :=
  match e with
  | .granted data n => n = r ∧ c.bufferBegin ≤ data ∧ r ∣ data - c.bufferBegin
  | _ => True

structure Fragmentless (r : Nat) (w : World c) : Prop where
  fifo : w.fifo.Aligned r
  drain : Asks r w.drain
  source : Asks r w.source

namespace Fragmentless

variable {r : Nat} {w w' : World c} {a : Operation} {e : Event}

theorem init (c : Layout) (r : Nat) : (World.init c).Fragmentless r where
  fifo := .init c r
  drain := trivial
  source := trivial

theorem of_step (h : w.Fragmentless r) (hinv : w.Inv) (hsize : r ∣ c.bufferSize)
    (hguard : w.Whole r a) (hstep : Step w a e w') : w'.Fragmentless r := by
  have hfifo := h.fifo
  have hdrain := h.drain
  have hsource := h.source
  cases hstep with
  | requestWriteThrows | commitWriteUnrequested | commitWriteTooLarge => exact h
  | requestReadThrows | commitReadUnrequested | commitReadTooLarge => exact h
  | requestWrite => exact ⟨hfifo, hguard, hsource⟩
  | requestRead => exact ⟨hfifo, hdrain, hguard⟩
  | writeEnded | failWrite => exact ⟨hfifo, trivial, hsource⟩
  | readEnded | failRead => exact ⟨hfifo, hdrain, trivial⟩
  | writeGranted len hready heos hlevel =>
    have hlen := hdrain.of_ready hready
    subst hlen
    refine ⟨{ hfifo with }, ?_, hsource⟩
    exact hfifo.writeGrant_eq hinv.fifo hsize hlevel
  | readGranted len hready hlevel =>
    have hlen := hsource.of_ready hready
    subst hlen
    refine ⟨{ hfifo with }, hdrain, ?_⟩
    exact hfifo.readGrant_eq hinv.fifo hsize hlevel
  | writeSlept len hready => exact ⟨{ hfifo with }, hdrain.of_ready hready, hsource⟩
  | readSlept len hready => exact ⟨{ hfifo with }, hdrain, hsource.of_ready hready⟩
  | wakeWrite len hasleep =>
    rw [hasleep] at hdrain
    exact ⟨hfifo, hdrain, hsource⟩
  | wakeRead len hasleep =>
    rw [hasleep] at hsource
    exact ⟨hfifo, hdrain, hsource⟩
  | store => exact ⟨{ hfifo with }, hdrain, hsource⟩
  | commitWrite len hfree hlen =>
    -- The range that is committed is the one that was granted, and that has `r` bytes.
    have hheld : w.drain = .holding w.fifo.wrPos len := hguard
    rw [hheld] at hdrain
    have hdvd : r ∣ len := ⟨1, by rw [hdrain, Nat.mul_one]⟩
    refine ⟨hfifo.wrote hinv.fifo hsize hdvd hlen, trivial, ?_⟩
    rw [asks_notifyIf]
    exact hsource
  | commitRead len hfree hlen =>
    have hheld : w.source = .holding w.fifo.rdPos len := hguard
    rw [hheld] at hsource
    have hdvd : r ∣ len := ⟨1, by rw [hsource, Nat.mul_one]⟩
    refine ⟨hfifo.took hinv.fifo hsize hdvd hlen, ?_, trivial⟩
    rw [asks_notifyIf]
    exact hdrain
  | endWrite =>
    refine ⟨{ hfifo with }, trivial, ?_⟩
    rw [asks_notifyAll]
    exact hsource
  | endRead =>
    refine ⟨{ hfifo with }, ?_, trivial⟩
    rw [asks_notifyAll]
    exact hdrain

theorem wholeGrant (h : w.Fragmentless r) (hinv : w.Inv) (hsize : r ∣ c.bufferSize)
    (hstep : Step w a e w') : WholeGrant c r e := by
  cases hstep with
  | writeGranted len hready heos hlevel =>
    have hlen := h.drain.of_ready hready
    subst hlen
    refine ⟨?_, hinv.fifo.wrPos_ge, h.fifo.wrOffset⟩
    exact h.fifo.writeGrant_eq hinv.fifo hsize hlevel
  | readGranted len hready hlevel =>
    have hlen := h.source.of_ready hready
    subst hlen
    refine ⟨?_, hinv.fifo.rdPos_ge, h.fifo.rdOffset⟩
    exact h.fifo.readGrant_eq hinv.fifo hsize hlevel
  | _ => trivial

end Fragmentless

theorem never_fragments (r k : Nat) (hsize : c.bufferSize = k * r) (tr : List (Operation × Event))
    (w : World c) (hruns : (machine c).Runs (Whole r) (init c) tr w) : ∀ x ∈ tr, WholeGrant c r x.2 := by
  have hdvd : r ∣ c.bufferSize := ⟨k, by rw [hsize, Nat.mul_comm]⟩
  apply hruns.forall_mem (I := fun v => v.Inv ∧ v.Fragmentless r) (P := fun x => WholeGrant c r x.2)
  . rintro v a v' e ⟨hinv, hv⟩ hguard hstep
    have hcases := step_cases hinv hstep
    refine ⟨⟨hinv.of_step hcases, ?_⟩, ?_⟩
    . exact hv.of_step hinv hdvd hguard hcases
    . exact hv.wholeGrant hinv hdvd hcases
  . exact ⟨inv_init c, .init c r⟩

/--
Both threads fall asleep, and both get around the buffer.
-/
theorem never_fragments_fourBytes :
    ∃ tr, ∃ w : World .fourBytes, (machine .fourBytes).Runs (Whole 2) (init .fourBytes) tr w ∧
      tr.map Prod.snd =
        [.entered, .slept, .entered, .granted 4096 2, .wrote [0, 0], .entered, .granted 4098 2, .wrote [0, 0],
          .entered, .slept, .granted 4096 2, .took [0, 0], .entered, .granted 4098 2, .took [0, 0],
          .granted 4096 2, .wrote [0, 0], .entered, .granted 4096 2] ∧
      ∀ x ∈ tr, WholeGrant .fourBytes 2 x.2 := by
  have hruns : (machine .fourBytes).Runs (Whole 2) (init .fourBytes)
      [(.requestRead 2, .entered), (.passRead, .slept), (.requestWrite 2, .entered),
        (.passWrite, .granted 4096 2), (.commitWrite 4096 2, .wrote [0, 0]), (.requestWrite 2, .entered),
        (.passWrite, .granted 4098 2), (.commitWrite 4098 2, .wrote [0, 0]), (.requestWrite 2, .entered),
        (.passWrite, .slept), (.passRead, .granted 4096 2), (.commitRead 4096 2, .took [0, 0]),
        (.requestRead 2, .entered), (.passRead, .granted 4098 2), (.commitRead 4098 2, .took [0, 0]),
        (.passWrite, .granted 4096 2), (.commitWrite 4096 2, .wrote [0, 0]), (.requestRead 2, .entered),
        (.passRead, .granted 4096 2)] _ :=
    .of_guarded (.of_exec (fun _ _ _ => trivial) rfl)
  exact ⟨_, _, hruns, rfl, never_fragments 2 2 rfl _ _ hruns⟩

end World
