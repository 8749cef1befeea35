import Buffer2.Fifo.Rules
import Buffer2.Simple.Basic

/-!
This module contains everything that the two threads can do to each other: one constructor of `Step` for
each way in which the loop of `write`, or of `read`, can go on.
-/

open Memory

namespace Simple

def Silent (l : Option (Operation × Event)) : Prop := ∀ y ∈ l, World.queueLabel y = none

theorem silent_none : Silent none := nofun

theorem silent_some {a : Operation} {e : Event} (h : World.queueLabel (a, e) = none) :
    Silent (some (a, e)) := by
  rintro _ ⟨⟩
  exact h

end Simple

namespace SimpleDrain

variable {c : Layout} {w w' : World c} {p p' : SimpleDrain}

def Holds (p : SimpleDrain) (w : World c) : Prop :=
  match p.pos with
  | .idle => p.copied = [] ∧ p.rest = [] ∧ w.drain = .idle
  | .loop => w.drain = .idle
  | .requesting => 0 < p.rest.length ∧ w.drain.pending = some p.rest.length
  | .copying dst blen i =>
    w.drain = .holding dst blen ∧ 0 < blen ∧ blen ≤ p.rest.length ∧ i ≤ blen ∧
      slice w.fifo.buffer dst i = p.rest.take i
  | .commit dst blen =>
    w.drain = .holding dst blen ∧ 0 < blen ∧ blen ≤ p.rest.length ∧
      slice w.fifo.buffer dst blen = p.rest.take blen
  | .closed => p.script = [] ∧ p.copied = [] ∧ p.rest = []
  | .thrown => False

theorem Holds.frame (h : p.Holds w) {notify : Bool} (hdrain : w'.drain = w.drain.notifyIf notify)
    (hbuffer : w'.fifo.buffer = w.fifo.buffer) : p.Holds w' := by
  unfold Holds at h ⊢
  split <;> simp_all

def inBody (p : SimpleDrain) : Bool :=
  match p.pos with
  | .requesting | .copying _ _ _ | .commit _ _ => true
  | _ => false

inductive Step (w : World c) (p : SimpleDrain) :
    World c → SimpleDrain → Option (Operation × Event) → Prop
  | call (src : List UInt8) (script : List (List UInt8)) (hpos : p.pos = .idle)
      (hscript : p.script = src :: script) :
    Step w p w { p with pos := .loop, script, rest := src } none
  | body {w' : World c} {l : Option (Operation × Event)} (pos : WritePos)
      (hpos : p.pos = .loop ∨ p.inBody = true) (hpos' : ({ p with pos } : SimpleDrain).inBody = true)
      (hquiet : World.Quiet w w') (hl : Simple.Silent l) :
    Step w p w' { p with pos } l
  | ret {w' : World c} {l : Option (Operation × Event)} (hpos : p.pos = .loop ∨ p.inBody = true)
      (hreason : 0 < p.rest.length → w.fifo.eos = true) (hquiet : World.Quiet w w')
      (hl : Simple.Silent l) :
    Step w p w' (p.ret p.rest.length) l
  | commit {w' : World c} {a : Operation} (blen : Nat) (hpos : p.inBody = true) (hblen : 0 < blen)
      (hle : blen ≤ p.rest.length) (hcontent : w'.content = w.content ++ p.rest.take blen)
      (heos : w'.fifo.eos = w.fifo.eos) :
    Step w p w'
      { p with
        pos := .loop
        copied := p.copied ++ p.rest.take blen
        rest := p.rest.drop blen }
      (some (a, .wrote (p.rest.take blen)))
  | close {w' : World c} (hpos : p.pos = .idle) (hscript : p.script = [])
      (hcontent : w'.content = w.content) (heos : w'.fifo.eos = true) :
    Step w p w' { p with pos := .closed } (some (.endWrite, .closed))

theorem own_cases {x : CopyChoice} (h : p.Holds w) (hmove : p.write x = some (.own p')) :
    Step w p w p' none ∧ p'.Holds w := by
  have hquiet : World.Quiet w w := ⟨rfl, rfl⟩
  unfold write at hmove
  split at hmove
  . next hpos =>
    simp only [Holds, hpos] at h
    split at hmove
    . cases hmove
    . next hscript =>
      cases hmove
      exact ⟨.call _ _ hpos hscript, h.2.2⟩
  . next hpos =>
    simp only [Holds, hpos] at h
    split at hmove
    . cases hmove
    . next hlen =>
      cases hmove
      have hlen : p.rest.length = 0 := by omega
      rw [← hlen]
      exact ⟨.ret (.inl hpos) (by omega) hquiet Simple.silent_none, rfl, rfl, h⟩
  . cases hmove
  . cases hmove
  . cases hmove
  . next dst blen i hpos =>
    simp only [Holds, hpos] at h
    obtain ⟨hholding, hblen, hle, hi, hslice⟩ := h
    split at hmove
    . split at hmove <;> cases hmove
    . cases hmove
      obtain rfl : i = blen := by omega
      have hbody : p.inBody = true := by simp [inBody, hpos]
      constructor
      . exact .body (.commit dst i) (.inr hbody) rfl hquiet Simple.silent_none
      . exact ⟨hholding, hblen, hle, hslice⟩
  . cases hmove
  . cases hmove

theorem call_cases {x : CopyChoice} {a : Operation} {e : Event} {resume : Event → SimpleDrain}
    (hinv : w.Inv) (h : p.Holds w) (hx : x ≠ .waitFails) (hmove : p.write x = some (.call a resume))
    (hstep : w.step a = some (w', e)) :
    a.side = .drain ∧ Step w p w' (resume e) (some (a, e)) ∧ (resume e).Holds w' := by
  unfold write at hmove
  split at hmove
  . next hpos =>
    split at hmove
    . next hscript =>
      cases hmove
      simp only [Holds, hpos] at h
      obtain ⟨rfl, _, hcontent, heos⟩ := World.endWrite_rule hinv hstep
      exact ⟨rfl, .close hpos hscript hcontent heos, hscript, h.1, h.2.1⟩
    . cases hmove
  . next hpos =>
    simp only [Holds, hpos] at h
    split at hmove
    . next hlen =>
      cases hmove
      obtain ⟨rfl, hpending, hquiet⟩ := World.requestWrite_rule hinv h hstep
      refine ⟨rfl, .body .requesting (.inl hpos) rfl hquiet (Simple.silent_some rfl), ?_, hpending⟩
      exact Nat.pos_of_ne_zero hlen
    . cases hmove
  . next hpos =>
    cases hmove
    have hbody : p.inBody = true := by simp [inBody, hpos]
    simp only [Holds, hpos] at h
    obtain ⟨hlen, hpending⟩ := h
    obtain ⟨hrequested, heos, hquiet⟩ := World.passWrite_rule hinv hpending hlen hstep
    refine ⟨rfl, ?_⟩
    cases hrequested with
    | granted dst blen hblen hle hcall =>
      have hresume : p.resume (.granted dst blen) = { p with pos := .copying dst blen 0 } := by
        simp only [resume, Nat.ne_of_gt hblen, ↓reduceIte]
      rw [hresume]
      constructor
      . exact .body (.copying dst blen 0) (.inr hbody) rfl hquiet (Simple.silent_some rfl)
      . exact ⟨hcall, hblen, hle, Nat.zero_le _, rfl⟩
    | ended hcall =>
      constructor
      . exact .ret (.inr hbody) (fun _ => heos rfl) hquiet (Simple.silent_some rfl)
      . exact ⟨rfl, rfl, hcall⟩
    | slept hcall =>
      constructor
      . exact .body .requesting (.inr hbody) rfl hquiet (Simple.silent_some rfl)
      . exact ⟨hlen, hcall⟩
  . next hpos =>
    cases hmove
    have hbody : p.inBody = true := by simp [inBody, hpos]
    simp only [Holds, hpos] at h
    obtain ⟨hlen, hpending⟩ := h
    obtain ⟨rfl, hpending', hquiet⟩ := World.wakeWrite_rule hinv hpending hstep
    exact ⟨rfl, .body .requesting (.inr hbody) rfl hquiet (Simple.silent_some rfl), hlen, hpending'⟩
  . exact absurd rfl hx
  . next dst blen i hpos =>
    have hbody : p.inBody = true := by simp [inBody, hpos]
    simp only [Holds, hpos] at h
    obtain ⟨hholding, hblen, hle, _, hslice⟩ := h
    split at hmove
    . next hlt =>
      split at hmove
      . next b hb =>
        cases hmove
        obtain ⟨rfl, hholding', hslice', hquiet⟩ := World.store_rule hinv hholding hlt hstep
        have htake : p.rest.take (i + 1) = p.rest.take i ++ [b] := by
          rw [List.take_add_one, hb, Option.toList_some]
        refine ⟨rfl, .body (.copying dst blen (i + 1)) (.inr hbody) rfl hquiet (Simple.silent_some rfl), ?_⟩
        refine ⟨hholding', hblen, hle, hlt, ?_⟩
        rw [hslice', hslice, htake]
      . cases hmove
    . cases hmove
  . next dst blen hpos =>
    cases hmove
    have hbody : p.inBody = true := by simp [inBody, hpos]
    simp only [Holds, hpos] at h
    obtain ⟨hholding, hblen, hle, hslice⟩ := h
    obtain ⟨rfl, hidle, hcontent, heos⟩ := World.commitWrite_rule hinv hholding (Nat.le_refl _) hstep
    rw [hslice] at hcontent ⊢
    exact ⟨rfl, .commit blen hbody hblen hle hcontent heos, hidle⟩
  . cases hmove

end SimpleDrain

namespace SimpleSource

variable {c : Layout} {w w' : World c} {p p' : SimpleSource}

def Holds (p : SimpleSource) (w : World c) : Prop :=
  match p.pos with
  | .idle => p.dst = [] ∧ w.source = .idle
  | .loop => p.dst.length + p.len = p.olen ∧ w.source = .idle
  | .requesting =>
    p.dst.length + p.len = p.olen ∧ 0 < p.len ∧ w.source.pending = some p.len
  | .copying src blen bytes =>
    p.dst.length + p.len = p.olen ∧ w.source = .holding src blen ∧ 0 < blen ∧ blen ≤ p.len ∧
      bytes.length ≤ blen ∧ bytes = w.content.take bytes.length
  | .commit src blen =>
    p.dst.length + p.len = p.olen + blen ∧ w.source = .holding src blen ∧ 0 < blen ∧ blen ≤ p.len
  | .closed => True
  | .thrown => False

def outFlight (p : SimpleSource) (content : List UInt8) : List UInt8 :=
  match p.pos with
  | .commit _ blen => content.take blen
  | _ => []

theorem Holds.frame (hinv : w.Inv) (h : p.Holds w) {notify : Bool}
    (hsource : w'.source = w.source.notifyIf notify) (hcontent : w.content <+: w'.content) :
    p.Holds w' := by
  obtain ⟨pos, script, olen, len, dst, log⟩ := p
  cases pos with
  | idle | loop | requesting | commit => simpa [Holds, hsource] using h
  | copying src blen bytes =>
    obtain ⟨hlen, hholding, hblen, hle, hbytes, htake⟩ := h
    obtain ⟨rest, hrest⟩ := hcontent
    have := World.le_of_holding hinv hholding
    refine ⟨hlen, by rw [hsource, hholding, Call.notifyIf_eq_holding], hblen, hle, hbytes, ?_⟩
    rw [← hrest, List.take_append_of_le_length (by omega)]
    exact htake
  | closed => trivial
  | thrown => exact h

theorem Holds.outFlight_frame (hinv : w.Inv) (h : p.Holds w) (hcontent : w.content <+: w'.content) :
    p.outFlight w'.content = p.outFlight w.content := by
  unfold outFlight
  split
  . next src blen hpos =>
    simp only [Holds, hpos] at h
    obtain ⟨_, hholding, _⟩ := h
    obtain ⟨rest, hrest⟩ := hcontent
    have := World.le_of_holding hinv hholding
    rw [← hrest, List.take_append_of_le_length (by omega)]
  . rfl

theorem Holds.outFlight_prefix (_ : p.Holds w) : p.outFlight w.content <+: w.content := by
  unfold outFlight
  split
  . exact List.take_prefix _ _
  . exact List.nil_prefix

def inBody (p : SimpleSource) : Bool :=
  match p.pos with
  | .requesting | .copying _ _ _ | .commit _ _ => true
  | _ => false

inductive Step (w : World c) (p : SimpleSource) :
    World c → SimpleSource → Option (Operation × Event) → Prop
  | call (len : Nat) (script : List Nat) (hpos : p.pos = .idle) (hscript : p.script = len :: script) :
    Step w p w { p with pos := .loop, script, olen := len, len } none
  | body {w' : World c} {l : Option (Operation × Event)} (pos : ReadPos)
      (hpos : p.pos = .loop ∨ p.inBody = true) (hpos' : ({ p with pos } : SimpleSource).inBody = true)
      (houtFlight : p.outFlight w.content = [])
      (houtFlight' : ({ p with pos } : SimpleSource).outFlight w'.content = [])
      (hquiet : World.Quiet w w') (hl : Simple.Silent l) :
    Step w p w' { p with pos } l
  | copied (src blen : Nat) (hpos : p.inBody = true) (houtFlight : p.outFlight w.content = []) :
    Step w p w { p with pos := .commit src blen, dst := p.dst ++ w.content.take blen } none
  | ret {w' : World c} {l : Option (Operation × Event)} (hpos : p.pos = .loop ∨ p.inBody = true)
      (hlen : p.dst.length + p.len = p.olen)
      (hreason : 0 < p.len → w.content = [] ∧ w.fifo.eos = true)
      (houtFlight : p.outFlight w.content = []) (hquiet : World.Quiet w w') (hl : Simple.Silent l) :
    Step w p w' (p.ret p.dst.length) l
  | commit {w' : World c} {a : Operation} (blen : Nat) (hpos : p.inBody = true) (hblen : 0 < blen)
      (hle : blen ≤ p.len) (houtFlight : p.outFlight w.content = w.content.take blen)
      (hcontent : w'.content = w.content.drop blen) (heos : w'.fifo.eos = w.fifo.eos) :
    Step w p w'
      { p with
        pos := .loop
        len := p.len - blen }
      (some (a, .took (w.content.take blen)))
  | close {w' : World c} (hpos : p.pos = .idle) (hcontent : w'.content = w.content)
      (heos : w'.fifo.eos = true) :
    Step w p w' { p with pos := .closed } (some (.endRead, .closed))

theorem own_cases {x : CopyChoice} (hinv : w.Inv) (h : p.Holds w)
    (hmove : p.read w.fifo.buffer x = some (.own p')) : Step w p w p' none ∧ p'.Holds w := by
  have hquiet : World.Quiet w w := ⟨rfl, rfl⟩
  unfold read at hmove
  split at hmove
  . next hpos =>
    simp only [Holds, hpos] at h
    split at hmove
    . cases hmove
    . next hscript =>
      cases hmove
      refine ⟨.call _ _ hpos hscript, ?_, h.2⟩
      simp [h.1]
  . next hpos =>
    have houtFlight : p.outFlight w.content = [] := by simp [outFlight, hpos]
    simp only [Holds, hpos] at h
    split at hmove
    . cases hmove
    . next hzero =>
      cases hmove
      have hlen : p.olen = p.dst.length := by omega
      rw [hlen]
      exact ⟨.ret (.inl hpos) h.1 (by omega) houtFlight hquiet Simple.silent_none, rfl, h.2⟩
  . cases hmove
  . cases hmove
  . cases hmove
  . next src blen bytes hpos =>
    have hbody : p.inBody = true := by simp [inBody, hpos]
    have houtFlight : p.outFlight w.content = [] := by simp [outFlight, hpos]
    simp only [Holds, hpos] at h
    obtain ⟨hlen, hholding, hblen, hle, hbytes, htake⟩ := h
    split at hmove
    . next hlt =>
      cases hmove
      refine ⟨.body (.copying src blen _) (.inr hbody) rfl houtFlight rfl hquiet Simple.silent_none,
        hlen, hholding, hblen, hle, ?_, ?_⟩
      . rw [List.length_append, List.length_singleton]
        exact hlt
      . rw [List.length_append, List.length_singleton, World.load_rule hinv hholding hlt, ← htake]
    . cases hmove
      obtain rfl : blen = bytes.length := by omega
      constructor
      . have hcopied := Step.copied src bytes.length hbody houtFlight
        rwa [← htake] at hcopied
      . refine ⟨?_, hholding, hblen, hle⟩
        show (p.dst ++ bytes).length + p.len = p.olen + bytes.length
        rw [List.length_append]
        omega
  . cases hmove
  . cases hmove

theorem call_cases {x : CopyChoice} {a : Operation} {e : Event} {resume : Event → SimpleSource}
    (hinv : w.Inv) (h : p.Holds w) (hx : x ≠ .waitFails)
    (hmove : p.read w.fifo.buffer x = some (.call a resume)) (hstep : w.step a = some (w', e)) :
    a.side = .source ∧ Step w p w' (resume e) (some (a, e)) ∧ (resume e).Holds w' := by
  unfold read at hmove
  split at hmove
  . next hpos =>
    split at hmove
    . cases hmove
      obtain ⟨rfl, _, hcontent, heos⟩ := World.endRead_rule hinv hstep
      exact ⟨rfl, .close hpos hcontent heos, trivial⟩
    . cases hmove
  . next hpos =>
    have houtFlight : p.outFlight w.content = [] := by simp [outFlight, hpos]
    simp only [Holds, hpos] at h
    obtain ⟨hlen, hidle⟩ := h
    split at hmove
    . next hne =>
      cases hmove
      obtain ⟨rfl, hpending, hquiet⟩ := World.requestRead_rule hinv hidle hstep
      refine ⟨rfl, .body .requesting (.inl hpos) rfl houtFlight rfl hquiet (Simple.silent_some rfl),
        hlen, ?_, hpending⟩
      exact Nat.pos_of_ne_zero hne
    . cases hmove
  . next hpos =>
    cases hmove
    have hbody : p.inBody = true := by simp [inBody, hpos]
    have houtFlight : p.outFlight w.content = [] := by simp [outFlight, hpos]
    simp only [Holds, hpos] at h
    obtain ⟨hlen, hne, hpending⟩ := h
    obtain ⟨hrequested, hend, hquiet⟩ := World.passRead_rule hinv hpending hne hstep
    refine ⟨rfl, ?_⟩
    cases hrequested with
    | granted src blen hblen hle hcall =>
      have hresume : p.resume (.granted src blen) = { p with pos := .copying src blen [] } := by
        simp only [resume, Nat.ne_of_gt hblen, ↓reduceIte]
      rw [hresume]
      constructor
      . exact .body (.copying src blen []) (.inr hbody) rfl houtFlight rfl hquiet (Simple.silent_some rfl)
      . exact ⟨hlen, hcall, hblen, hle, Nat.zero_le _, rfl⟩
    | ended hcall =>
      have hresume : p.resume .ended = p.ret p.dst.length := by
        simp only [resume]
        congr 1
        omega
      rw [hresume]
      constructor
      . exact .ret (.inr hbody) hlen (fun _ => hend rfl) houtFlight hquiet (Simple.silent_some rfl)
      . exact ⟨rfl, hcall⟩
    | slept hcall =>
      constructor
      . exact .body .requesting (.inr hbody) rfl houtFlight rfl hquiet (Simple.silent_some rfl)
      . exact ⟨hlen, hne, hcall⟩
  . next hpos =>
    cases hmove
    have hbody : p.inBody = true := by simp [inBody, hpos]
    have houtFlight : p.outFlight w.content = [] := by simp [outFlight, hpos]
    simp only [Holds, hpos] at h
    obtain ⟨hlen, hne, hpending⟩ := h
    obtain ⟨rfl, hpending', hquiet⟩ := World.wakeRead_rule hinv hpending hstep
    refine ⟨rfl, .body .requesting (.inr hbody) rfl houtFlight rfl hquiet (Simple.silent_some rfl), ?_⟩
    exact ⟨hlen, hne, hpending'⟩
  . exact absurd rfl hx
  . next src blen bytes hpos =>
    split at hmove <;> cases hmove
  . next src blen hpos =>
    cases hmove
    have hbody : p.inBody = true := by simp [inBody, hpos]
    have houtFlight : p.outFlight w.content = w.content.take blen := by simp [outFlight, hpos]
    simp only [Holds, hpos] at h
    obtain ⟨hlen, hholding, hblen, hle⟩ := h
    obtain ⟨rfl, hidle, hcontent, heos⟩ := World.commitRead_rule hinv hholding (Nat.le_refl _) hstep
    refine ⟨rfl, .commit blen hbody hblen hle houtFlight hcontent heos, ?_, hidle⟩
    show p.dst.length + (p.len - blen) = p.olen
    omega
  . cases hmove

end SimpleSource
