import Buffer2.Simple.Steps
import Buffer2.Fifo.Wakeup

/-!
This module contains the account of what the calls of `SimpleDrain::write` and `SimpleSource::read` have
done, and the proof that every step of the two threads keeps it.
-/

namespace Simple

variable {c : Layout} {s s' : Simple c} {l : Option (Operation × Event)} {x : CopyChoice ⊕ CopyChoice}

structure Inv (s : Simple c) : Prop where
  world : s.shared.Inv
  left : s.left.Holds s.shared
  right : s.right.Holds s.shared

theorem inv_init (c : Layout) (writes : List (List UInt8)) (reads : List Nat) :
    (init c writes reads).Inv where
  world := World.inv_init c
  left := ⟨rfl, rfl, rfl⟩
  right := ⟨rfl, rfl⟩

def NoWaitFails (_ : Simple c) (x : CopyChoice ⊕ CopyChoice) : Prop := x.elim id id ≠ .waitFails

inductive Step (s s' : Simple c) (l : Option (Operation × Event)) : CopyChoice ⊕ CopyChoice → Prop
  | write {x : CopyChoice} (hstep : SimpleDrain.Step s.shared s.left s'.shared s'.left l)
      (hright : s'.right = s.right)
      (houtFlight : s.right.outFlight s'.shared.content = s.right.outFlight s.shared.content) :
    Step s s' l (.inl x)
  | read {x : CopyChoice} (hstep : SimpleSource.Step s.shared s.right s'.shared s'.right l)
      (hleft : s'.left = s.left) :
    Step s s' l (.inr x)

theorem content_prefix_of_write {w w' : World c} {p p' : SimpleDrain}
    (h : SimpleDrain.Step w p w' p' l) : w.content <+: w'.content := by
  cases h with
  | call => exact List.prefix_rfl
  | body _ _ _ hquiet => exact hquiet.content_prefix
  | ret _ _ hquiet => exact hquiet.content_prefix
  | commit blen _ _ _ hcontent =>
    rw [hcontent]
    exact List.prefix_append _ _
  | close _ _ hcontent =>
    rw [hcontent]

theorem Inv.step (h : s.Inv) (hx : s.NoWaitFails x) (hstep : (machine c).step s x = some (s', l)) :
    s'.Inv ∧ Step s s' l x := by
  obtain ⟨hworld, hleft, hright⟩ := h
  cases x with
  | inl x =>
    obtain ⟨hprogram, hother⟩ := Machine.compose_inl hstep
    have hone : SimpleDrain.Step s.shared s.left s'.shared s'.left l ∧ s'.shared.Inv ∧
        s'.left.Holds s'.shared ∧ ∃ notify, s'.shared.source = s.shared.source.notifyIf notify := by
      generalize s'.shared = w', s'.left = p' at hprogram
      cases hprogram with
      | own hmove =>
        obtain ⟨hcases, hholds⟩ := SimpleDrain.own_cases hleft hmove
        exact ⟨hcases, hworld, hholds, false, rfl⟩
      | call hmove hcall =>
        obtain ⟨hside, hcases, hholds⟩ := SimpleDrain.call_cases hworld hleft hx hmove hcall
        exact ⟨hcases, hworld.step hcall, hholds, World.source_frame hworld hside hcall⟩
    obtain ⟨hcases, hworld', hleft', notify, hsource⟩ := hone
    have hcontent := content_prefix_of_write hcases
    refine ⟨⟨hworld', hleft', ?_⟩, .write hcases hother (hright.outFlight_frame hworld hcontent)⟩
    rw [hother]
    exact hright.frame hworld hsource hcontent
  | inr x =>
    obtain ⟨hprogram, hother⟩ := Machine.compose_inr hstep
    have hone : SimpleSource.Step s.shared s.right s'.shared s'.right l ∧ s'.shared.Inv ∧
        s'.right.Holds s'.shared ∧ (∃ notify, s'.shared.drain = s.shared.drain.notifyIf notify) ∧
          s'.shared.fifo.buffer = s.shared.fifo.buffer := by
      generalize s'.shared = w', s'.right = p' at hprogram
      cases hprogram with
      | own hmove =>
        obtain ⟨hcases, hholds⟩ := SimpleSource.own_cases hworld hright hmove
        exact ⟨hcases, hworld, hholds, ⟨false, rfl⟩, rfl⟩
      | call hmove hcall =>
        obtain ⟨hside, hcases, hholds⟩ := SimpleSource.call_cases hworld hright hx hmove hcall
        exact ⟨hcases, hworld.step hcall, hholds, World.drain_frame hworld hside hcall⟩
    obtain ⟨hcases, hworld', hright', ⟨notify, hdrain⟩, hbuffer⟩ := hone
    refine ⟨⟨hworld', ?_, hright'⟩, .read hcases hother⟩
    rw [hother]
    exact hleft.frame hdrain hbuffer

section Ledger

def committed (p : SimpleDrain) : List UInt8 :=
  (p.log.flatMap fun x => x.src.take (x.src.length - x.result)) ++ p.copied

def received (p : SimpleSource) : List UInt8 := (p.log.flatMap fun x => x.dst) ++ p.dst

def current (p : SimpleDrain) : List (List UInt8) :=
  match p.pos with
  | .idle | .closed => []
  | _ => [p.copied ++ p.rest]

/--
What the two threads have done so far. A call of `write` that did not write everything has met a FIFO
that the other side closed, and a call of `read` that did not read everything the end of the stream.
-/
structure Ledger (writes : List (List UInt8)) (tr : List (Operation × Event)) (s : Simple c) : Prop where
  writes : s.left.log.map (·.src) ++ current s.left ++ s.left.script = writes
  written : World.written tr = committed s.left
  taken : World.taken tr ++ s.right.outFlight s.shared.content = received s.right
  content : World.written tr = World.taken tr ++ s.shared.content
  eos : s.shared.fifo.eos = true ↔ s.left.pos = .closed ∨ s.right.pos = .closed
  endWrite : s.left.pos = .closed → .endWrite ∈ tr.map Prod.fst
  partialWrite : ∀ x ∈ s.left.log, x.result ≤ x.src.length ∧ (0 < x.result → s.right.pos = .closed)
  read : ∀ x ∈ s.right.log, x.result = x.dst.length ∧ x.result ≤ x.len
  shortRead : ∀ x ∈ s.right.log, x.result < x.len →
    s.left.pos = .closed ∧ s.shared.content = [] ∧ ∀ y ∈ s.left.log, y.result = 0

theorem ledger_init (c : Layout) (writes : List (List UInt8)) (reads : List Nat) :
    Ledger writes [] (init c writes reads) := by
  constructor <;> simp [init, SimpleDrain.init, SimpleSource.init, current, committed, received,
    World.written, World.taken, World.init, SimpleSource.outFlight, World.content]

theorem silent_trace (tr : List (Operation × Event)) (h : Silent l) :
    World.written (tr ++ l.toList) = World.written tr ∧
      World.taken (tr ++ l.toList) = World.taken tr := by
  cases l with
  | none => simp
  | some y =>
    have hy := h y rfl
    obtain ⟨a, e⟩ := y
    cases e <;> simp_all [World.queueLabel, World.written, World.taken]

theorem current_of_body {p : SimpleDrain} (h : p.pos = .loop ∨ p.inBody = true) :
    current p = [p.copied ++ p.rest] := by
  unfold current SimpleDrain.inBody at *
  split <;> simp_all

theorem not_closed_of_body {p : SimpleDrain} (h : p.pos = .loop ∨ p.inBody = true) : p.pos ≠ .closed := by
  unfold SimpleDrain.inBody at h
  split at h <;> simp_all

theorem committed_ret (p : SimpleDrain) : committed (p.ret p.rest.length) = committed p := by
  have hlen : (p.copied ++ p.rest).length - p.rest.length = p.copied.length := by simp
  simp only [committed, SimpleDrain.ret, List.flatMap_append, List.flatMap_singleton, hlen,
    List.take_left', List.append_nil]

theorem Ledger.content_silent {writes : List (List UInt8)} {tr : List (Operation × Event)} {w' : World c}
    (h : Ledger writes tr s) (hl : Silent l) (hcontent : w'.content = s.shared.content) :
    World.written (tr ++ l.toList) = World.taken (tr ++ l.toList) ++ w'.content := by
  obtain ⟨hwritten, htaken⟩ := silent_trace tr hl
  rw [hwritten, htaken, hcontent]
  exact h.content

section Write

variable {writes : List (List UInt8)} {tr : List (Operation × Event)} {w' : World c} {p' : SimpleDrain}

theorem Ledger.write_step (hinv : s.Inv) (h : Ledger writes tr s)
    (hstep : SimpleDrain.Step s.shared s.left w' p' l)
    (houtFlight : s.right.outFlight w'.content = s.right.outFlight s.shared.content) :
    Ledger writes (tr ++ l.toList) ({ s with shared := w', left := p' } : Simple c) := by
  have hholds := hinv.left
  have heos := h.eos
  -- As long as the writer is not done no read has come to the end of the stream.
  have hnone : s.left.pos ≠ .closed → ∀ x ∈ s.right.log, ¬ x.result < x.len :=
    fun hpos x hx hlt => hpos (h.shortRead x hx hlt).1
  cases hstep with
  | call src script hpos hscript =>
    have hopen : s.left.pos ≠ .closed := by simp [hpos]
    simp only [SimpleDrain.Holds, hpos] at hholds
    simp only [hopen, false_or] at heos
    rw [Option.toList_none, List.append_nil]
    exact
      { h with
        writes := by
          rw [← h.writes, hscript]
          simp [current, hpos, hholds.1]
        eos := by simpa using heos
        endWrite := by simp
        shortRead := fun x hx hlt => absurd hlt (hnone hopen x hx) }
  | body pos hpos hpos' hquiet hl =>
    have hopen := not_closed_of_body hpos
    have hopen' := not_closed_of_body (.inr hpos')
    obtain ⟨hwritten, htaken⟩ := silent_trace tr hl
    simp only [hopen, false_or] at heos
    exact
      { writes := by
          rw [← h.writes, current_of_body hpos, current_of_body (.inr hpos')]
        written := hwritten.trans h.written
        taken := by
          rw [htaken, houtFlight]
          exact h.taken
        content := h.content_silent hl hquiet.content
        eos := by
          rw [hquiet.eos]
          simpa [hopen'] using heos
        endWrite := fun hclosed => absurd hclosed hopen'
        partialWrite := h.partialWrite
        read := h.read
        shortRead := fun x hx hlt => absurd hlt (hnone hopen x hx) }
  | ret hpos hreason hquiet hl =>
    have hopen := not_closed_of_body hpos
    obtain ⟨hwritten, htaken⟩ := silent_trace tr hl
    simp only [hopen, false_or] at heos
    exact
      { writes := by
          rw [← h.writes, current_of_body hpos]
          simp [current, SimpleDrain.ret]
        written := by
          rw [hwritten, committed_ret]
          exact h.written
        taken := by
          rw [htaken, houtFlight]
          exact h.taken
        content := h.content_silent hl hquiet.content
        eos := by
          rw [hquiet.eos]
          simpa [SimpleDrain.ret] using heos
        endWrite := by simp [SimpleDrain.ret]
        partialWrite := by
          intro x hx
          simp only [SimpleDrain.ret, List.mem_append, List.mem_singleton] at hx
          cases hx with
          | inl hx => exact h.partialWrite x hx
          | inr hx =>
            subst hx
            exact ⟨by simp, fun hpos => heos.mp (hreason hpos)⟩
        read := h.read
        shortRead := fun x hx hlt => absurd hlt (hnone hopen x hx) }
  | commit blen hpos hblen hle hcontent heos' =>
    have hopen := not_closed_of_body (.inr hpos)
    simp only [hopen, false_or] at heos
    exact
      { writes := by
          rw [← h.writes, current_of_body (.inr hpos)]
          simp [current]
        written := by
          simp only [World.written_append, h.written, committed]
          simp [World.written]
        taken := by
          rw [World.taken_append, houtFlight, ← h.taken]
          simp [World.taken]
        content := by
          rw [World.written_append, World.taken_append, h.content, hcontent]
          simp [World.written, World.taken]
        eos := by
          rw [heos']
          simpa using heos
        endWrite := by simp
        partialWrite := h.partialWrite
        read := h.read
        shortRead := fun x hx hlt => absurd hlt (hnone hopen x hx) }
  | close hpos hscript hcontent heos' =>
    have hopen : s.left.pos ≠ .closed := by simp [hpos]
    obtain ⟨hwritten, htaken⟩ := silent_trace tr (silent_some (a := .endWrite) (e := .closed) rfl)
    exact
      { writes := by
          rw [← h.writes]
          simp [current, hpos]
        written := by
          rw [hwritten, h.written]
          rfl
        taken := by
          rw [htaken, houtFlight]
          exact h.taken
        content := h.content_silent (silent_some rfl) hcontent
        eos := by simp [heos']
        endWrite := fun _ => by simp
        partialWrite := h.partialWrite
        read := h.read
        shortRead := fun x hx hlt => absurd hlt (hnone hopen x hx) }

end Write

section Read

variable {writes : List (List UInt8)} {tr : List (Operation × Event)} {w' : World c} {p' : SimpleSource}

theorem read_not_closed_of_body {p : SimpleSource} (h : p.pos = .loop ∨ p.inBody = true) :
    p.pos ≠ .closed := by
  unfold SimpleSource.inBody at h
  split at h <;> simp_all

theorem Ledger.read_step (h : Ledger writes tr s)
    (hstep : SimpleSource.Step s.shared s.right w' p' l) :
    Ledger writes (tr ++ l.toList) ({ s with shared := w', right := p' } : Simple c) := by
  have heos := h.eos
  -- As long as the reader is not done every call of `write` has written everything.
  have hfull : s.right.pos ≠ .closed → ∀ x ∈ s.left.log, ¬ 0 < x.result :=
    fun hpos x hx hlt => hpos ((h.partialWrite x hx).2 hlt)
  have hpartial : s.right.pos ≠ .closed →
      ∀ x ∈ s.left.log, x.result ≤ x.src.length ∧ (0 < x.result → p'.pos = .closed) :=
    fun hpos x hx => ⟨(h.partialWrite x hx).1, fun hlt => absurd hlt (hfull hpos x hx)⟩
  have hendWrite : s.left.pos = .closed → .endWrite ∈ (tr ++ l.toList).map Prod.fst := by
    intro hclosed
    rw [List.map_append]
    exact List.mem_append_left _ (h.endWrite hclosed)
  cases hstep with
  | call len script hpos hscript =>
    have hopen : s.right.pos ≠ .closed := by simp [hpos]
    simp only [hopen, or_false] at heos
    rw [Option.toList_none, List.append_nil]
    exact
      { h with
        taken := by simpa [SimpleSource.outFlight, hpos, received] using h.taken
        eos := by simpa using heos
        partialWrite := hpartial hopen }
  | body pos hpos hpos' houtFlight houtFlight' hquiet hl =>
    have hopen := read_not_closed_of_body hpos
    have hopen' := read_not_closed_of_body (.inr hpos')
    obtain ⟨hwritten, htaken⟩ := silent_trace tr hl
    simp only [hopen, or_false] at heos
    exact
      { writes := h.writes
        written := hwritten.trans h.written
        taken := by
          have hreceived := h.taken
          rw [houtFlight] at hreceived
          rw [htaken, houtFlight']
          exact hreceived
        content := h.content_silent hl hquiet.content
        eos := by
          rw [hquiet.eos]
          simpa [hopen'] using heos
        endWrite := hendWrite
        partialWrite := hpartial hopen
        read := h.read
        shortRead := by
          rw [hquiet.content]
          exact h.shortRead }
  | copied src blen hpos houtFlight =>
    have hopen := read_not_closed_of_body (.inr hpos)
    simp only [hopen, or_false] at heos
    rw [Option.toList_none, List.append_nil]
    exact
      { h with
        taken := by
          have hreceived := h.taken
          rw [houtFlight, List.append_nil] at hreceived
          rw [hreceived]
          simp [received, SimpleSource.outFlight]
        eos := by simpa using heos
        partialWrite := hpartial hopen }
  | ret hpos hlen hreason houtFlight hquiet hl =>
    have hopen := read_not_closed_of_body hpos
    obtain ⟨hwritten, htaken⟩ := silent_trace tr hl
    simp only [hopen, or_false] at heos
    exact
      { writes := h.writes
        written := hwritten.trans h.written
        taken := by
          have hreceived := h.taken
          rw [houtFlight, List.append_nil] at hreceived
          rw [htaken, hreceived]
          simp [received, SimpleSource.ret, SimpleSource.outFlight]
        content := h.content_silent hl hquiet.content
        eos := by
          rw [hquiet.eos]
          simpa [SimpleSource.ret] using heos
        endWrite := hendWrite
        partialWrite := hpartial hopen
        read := by
          intro x hx
          simp only [SimpleSource.ret, List.mem_append, List.mem_singleton] at hx
          cases hx with
          | inl hx => exact h.read x hx
          | inr hx =>
            subst hx
            exact ⟨rfl, Nat.le_of_add_right_le (Nat.le_of_eq hlen)⟩
        shortRead := by
          intro x hx hlt
          rw [hquiet.content]
          simp only [SimpleSource.ret, List.mem_append, List.mem_singleton] at hx
          cases hx with
          | inl hx => exact h.shortRead x hx hlt
          | inr hx =>
            subst hx
            have hlt : s.right.dst.length < s.right.olen := hlt
            obtain ⟨hempty, hend⟩ := hreason (by omega)
            exact ⟨heos.mp hend, hempty, fun y hy => Nat.eq_zero_of_not_pos (hfull hopen y hy)⟩ }
  | commit blen hpos hblen hle houtFlight hcontent heos' =>
    have hopen := read_not_closed_of_body (.inr hpos)
    simp only [hopen, or_false] at heos
    exact
      { writes := h.writes
        written := by
          rw [World.written_append, h.written]
          simp [World.written]
        taken := by
          have hreceived := h.taken
          rw [houtFlight] at hreceived
          rw [World.taken_append]
          simpa [World.taken, SimpleSource.outFlight, received] using hreceived
        content := by
          rw [World.written_append, World.taken_append, h.content, hcontent]
          simp [World.written, World.taken]
        eos := by
          rw [heos']
          simpa using heos
        endWrite := hendWrite
        partialWrite := hpartial hopen
        read := h.read
        shortRead := by
          intro x hx hlt
          obtain ⟨hclosed, hempty, hall⟩ := h.shortRead x hx hlt
          exact ⟨hclosed, by simp [hcontent, hempty], hall⟩ }
  | close hpos hcontent heos' =>
    obtain ⟨hwritten, htaken⟩ := silent_trace tr (silent_some (a := .endRead) (e := .closed) rfl)
    exact
      { writes := h.writes
        written := hwritten.trans h.written
        taken := by
          have hreceived := h.taken
          rw [htaken]
          simpa [SimpleSource.outFlight, hpos, received] using hreceived
        content := h.content_silent (silent_some rfl) hcontent
        eos := by simp [heos']
        endWrite := hendWrite
        partialWrite := fun x hx => ⟨(h.partialWrite x hx).1, fun _ => rfl⟩
        read := h.read
        shortRead := by
          rw [hcontent]
          exact h.shortRead }

end Read

end Ledger

theorem ledger_of_runs {writes : List (List UInt8)} {reads : List Nat}
    {tr : List ((CopyChoice ⊕ CopyChoice) × Option (Operation × Event))}
    (hruns : (machine c).Runs NoWaitFails (init c writes reads) tr s) :
    s.Inv ∧ Ledger writes (Machine.calls tr) s := by
  apply hruns.history (I := fun tr s => s.Inv ∧ Ledger writes (Machine.calls tr) s)
  . rintro tr s x s' l ⟨hinv, hledger⟩ hx hstep
    obtain ⟨hinv', hcases⟩ := hinv.step hx hstep
    constructor
    . exact hinv'
    . rw [Machine.calls_append]
      obtain ⟨w', p', q'⟩ := s'
      cases hcases with
      | write hone hright houtFlight =>
        obtain rfl : q' = s.right := hright
        exact hledger.write_step hinv hone houtFlight
      | read hone hleft =>
        obtain rfl : p' = s.left := hleft
        exact hledger.read_step hone
  . exact ⟨inv_init c writes reads, ledger_init c writes reads⟩

end Simple
