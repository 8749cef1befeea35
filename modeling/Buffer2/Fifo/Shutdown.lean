import Buffer2.Fifo.Grants
import Buffer2.Fifo.Wakeup

/-!
This module contains the proofs about the end of a stream. The one flag serves both directions:
`EndWrite` cancels the grant of the writer and lets the reader empty the buffer, `EndRead` cancels the
grant of the reader and leaves that of the writer alone.
-/

namespace World

variable {c : Layout}

def WriteClosed (w : World c) : Prop := w.fifo.eos = true ∧ w.fifo.wrReq = 0

structure Drained (w : World c) : Prop where
  closed : w.WriteClosed
  level : w.fifo.level = 0
  rdReq : w.fifo.rdReq = 0

section Step

variable {w w' : World c} {a : Operation} {e : Event}

theorem WriteClosed.of_step (h : w.WriteClosed) (hstep : Step w a e w') : w'.WriteClosed := by
  obtain ⟨heos, hreq⟩ := h
  cases hstep with
  | writeGranted len hready hopen => simp [heos] at hopen
  | commitWrite | endWrite => exact ⟨by simp [heos], rfl⟩
  | commitRead | endRead => exact ⟨by simp [heos], hreq⟩
  | _ => exact ⟨heos, hreq⟩

theorem Drained.of_step (h : w.Drained) (hstep : Step w a e w') : w'.Drained := by
  refine ⟨h.closed.of_step hstep, ?_, ?_⟩
  . have hlevel := h.level
    have hreq := h.closed.2
    cases hstep with
    | commitWrite len hfree hlen =>
      simp only [StaticFIFO.wrote_level]
      omega
    | commitRead len =>
      simp only [StaticFIFO.took_level]
      omega
    | _ => exact hlevel
  . have hlevel := h.level
    have hreq := h.rdReq
    cases hstep with
    | readGranted len hready hpos => omega
    | commitRead | endRead => rfl
    | _ => exact hreq

end Step

section Pending

variable {w w' : World c} {a : Operation} {e : Event}

end Pending

section Runs

variable {G : World c → Operation → Prop} {w w' : World c} {tr : List (Operation × Event)}

end Runs

section Closed

variable {w w' : World c} {e : Event}

end Closed

end World
