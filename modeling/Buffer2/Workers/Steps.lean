import Buffer2.Workers.Basic

/-!
This module contains everything that a worker can do: one constructor of `Moves` for each way in which
it can go on.
-/

namespace InputWorker

inductive Moves (requestSize : Nat) (p : InputWorker) : Choice → Move Operation Event InputWorker → Prop
  | initialized (hpos : p.pos = .initializing) :
    Moves requestSize p .run (.own { p with pos := .request })
  | initializeThrew (e : Exception) (hpos : p.pos = .initializing) :
    Moves requestSize p (.throws e) (.own (p.handle e))
  | requestWrite (hpos : p.pos = .request) :
    Moves requestSize p .run (.call (.requestWrite requestSize) p.resume)
  | passWrite (hpos : p.pos = .requesting) : Moves requestSize p .run (.call .passWrite p.resume)
  | wakeWrite (hpos : p.pos = .requesting) : Moves requestSize p .wake (.call .wakeWrite p.resume)
  | failWrite (hpos : p.pos = .requesting) : Moves requestSize p .waitFails (.call .failWrite p.resume)
  | store (buf len n : Nat) (b : UInt8) (hpos : p.pos = .reading buf len n)
      (hb : p.stream[n]? = some b) (hn : n < len) :
    Moves requestSize p .byte
      (.call (.store (buf + n) b) fun _ => { p with pos := .reading buf len (n + 1) })
  | readData (buf len n : Nat) (hpos : p.pos = .reading buf len n) (hn : n ≠ 0) :
    Moves requestSize p .run
      (.own
        { p with
          pos := .commit buf n
          stream := p.stream.drop n
          delivered := p.delivered ++ p.stream.take n })
  | endOfStream (buf len : Nat) (hpos : p.pos = .reading buf len 0) (hstream : p.stream = []) :
    Moves requestSize p .run (.own { p with pos := .endWrite })
  | readThrew (buf len n : Nat) (e : Exception) (hpos : p.pos = .reading buf len n) :
    Moves requestSize p (.throws e) (.own (p.handle e))
  | commitWrite (buf len : Nat) (hpos : p.pos = .commit buf len) :
    Moves requestSize p .run (.call (.commitWrite buf len) p.resumeCommit)
  | endWrite (hpos : p.pos = .endWrite) :
    Moves requestSize p .run (.call .endWrite fun _ => { p with pos := .done })

theorem move_cases {requestSize : Nat} {p : InputWorker} {x : Choice} {m : Move Operation Event InputWorker}
    (h : p.move requestSize x = some m) : Moves requestSize p x m := by
  unfold move at h
  split at h
  . next hpos =>
    cases h
    apply Moves.initialized
    exact hpos
  . next hpos =>
    cases h
    apply Moves.initializeThrew
    exact hpos
  . next hpos =>
    cases h
    apply Moves.requestWrite
    exact hpos
  . next hpos =>
    cases h
    apply Moves.passWrite
    exact hpos
  . next hpos =>
    cases h
    apply Moves.wakeWrite
    exact hpos
  . next hpos =>
    cases h
    apply Moves.failWrite
    exact hpos
  . next hpos =>
    split at h
    . next hb =>
      split at h
      . next hn =>
        cases h
        apply Moves.store
        . exact hpos
        . exact hb
        . exact hn
      . cases h
    . cases h
  . next n hpos =>
    split at h
    . next hn =>
      cases h
      apply Moves.readData
      . exact hpos
      . exact hn
    . next hn =>
      split at h
      . next hstream =>
        cases h
        obtain rfl : n = 0 := by omega
        apply Moves.endOfStream
        . exact hpos
        . exact hstream
      . cases h
  . next hpos =>
    cases h
    apply Moves.readThrew
    exact hpos
  . next hpos =>
    cases h
    apply Moves.commitWrite
    exact hpos
  . next hpos =>
    cases h
    apply Moves.endWrite
    exact hpos
  . cases h

end InputWorker

namespace OutputWorker

inductive Moves (requestSize : Nat) (buffer : Nat → UInt8) (p : OutputWorker) :
    Choice → Move Operation Event OutputWorker → Prop
  | initialized (hpos : p.pos = .initializing) :
    Moves requestSize buffer p .run (.own { p with pos := .request })
  | initializeThrew (e : Exception) (hpos : p.pos = .initializing) :
    Moves requestSize buffer p (.throws e) (.own (p.handle e))
  | requestRead (hpos : p.pos = .request) :
    Moves requestSize buffer p .run (.call (.requestRead requestSize) p.resume)
  | passRead (hpos : p.pos = .requesting) :
    Moves requestSize buffer p .run (.call .passRead p.resume)
  | wakeRead (hpos : p.pos = .requesting) :
    Moves requestSize buffer p .wake (.call .wakeRead p.resume)
  | failRead (hpos : p.pos = .requesting) :
    Moves requestSize buffer p .waitFails (.call .failRead p.resume)
  | load (buf len : Nat) (bytes : List UInt8) (hpos : p.pos = .writing buf len bytes)
      (hlen : bytes.length < len) :
    Moves requestSize buffer p .byte
      (.own { p with pos := .writing buf len (bytes ++ [buffer (buf + bytes.length)]) })
  | writeRefused (buf len : Nat) (hpos : p.pos = .writing buf len []) :
    Moves requestSize buffer p .run (.own (p.handle .runtime))
  | writeData (buf len : Nat) (bytes : List UInt8) (hpos : p.pos = .writing buf len bytes)
      (hbytes : bytes ≠ []) :
    Moves requestSize buffer p .run
      (.own
        { p with
          pos := .commit buf bytes.length
          accepted := p.accepted ++ bytes })
  | writeThrew (buf len : Nat) (bytes : List UInt8) (e : Exception)
      (hpos : p.pos = .writing buf len bytes) :
    Moves requestSize buffer p (.throws e) (.own (p.handle e))
  | commitRead (buf len : Nat) (hpos : p.pos = .commit buf len) :
    Moves requestSize buffer p .run (.call (.commitRead buf len) p.resumeCommit)
  | endRead (hpos : p.pos = .endRead) :
    Moves requestSize buffer p .run (.call .endRead fun _ => { p with pos := .done })

theorem move_cases {requestSize : Nat} {buffer : Nat → UInt8} {p : OutputWorker} {x : Choice}
    {m : Move Operation Event OutputWorker} (h : p.move requestSize buffer x = some m) :
    Moves requestSize buffer p x m := by
  unfold move at h
  split at h
  . next hpos =>
    cases h
    apply Moves.initialized
    exact hpos
  . next hpos =>
    cases h
    apply Moves.initializeThrew
    exact hpos
  . next hpos =>
    cases h
    apply Moves.requestRead
    exact hpos
  . next hpos =>
    cases h
    apply Moves.passRead
    exact hpos
  . next hpos =>
    cases h
    apply Moves.wakeRead
    exact hpos
  . next hpos =>
    cases h
    apply Moves.failRead
    exact hpos
  . next hpos =>
    split at h
    . next hlen =>
      cases h
      apply Moves.load
      . exact hpos
      . exact hlen
    . cases h
  . next hpos =>
    split at h
    . next hbytes =>
      cases h
      rw [List.length_eq_zero_iff] at hbytes
      subst hbytes
      apply Moves.writeRefused
      exact hpos
    . next hbytes =>
      cases h
      apply Moves.writeData
      . exact hpos
      . intro hnil
        simp [hnil] at hbytes
  . next hpos =>
    cases h
    apply Moves.writeThrew
    exact hpos
  . next hpos =>
    cases h
    apply Moves.commitRead
    exact hpos
  . next hpos =>
    cases h
    apply Moves.endRead
    exact hpos
  . cases h

end OutputWorker
