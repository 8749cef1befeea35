import Buffer2.Fifo.Content

/-!
This module contains the rules by which a program uses its side of the FIFO: what it knows about its
call before and after each of the operations, and that the other side cannot take this away from it.
-/

open Memory

namespace World

variable {c : Layout} {w w' : World c} {e : Event}

structure Quiet (w w' : World c) : Prop where
  content : w'.content = w.content
  eos : w'.fifo.eos = w.fifo.eos

theorem Quiet.content_prefix (h : Quiet w w') : w.content <+: w'.content := by
  rw [h.content]

theorem Quiet.level (h : Quiet w w') : w'.fifo.level = w.fifo.level := by
  rw [← length_content w', ← length_content w, h.content]

inductive Requested (len : Nat) (call : Call) : Event → Prop
  | granted (data n : Nat) (hpos : 0 < n) (hle : n ≤ len) (hcall : call = .holding data n) :
      Requested len call (.granted data n)
  | ended (hcall : call = .idle) : Requested len call .ended
  | slept (hcall : call.pending = some len) : Requested len call .slept

section Drain

theorem requestWrite_rule {len : Nat} (hinv : w.Inv) (hidle : w.drain = .idle)
    (hstep : w.step (.requestWrite len) = some (w', e)) :
    e = .entered ∧ w'.drain.pending = some len ∧ Quiet w w' := by
  cases step_cases hinv hstep with
  | requestWriteThrows _ _ hreq =>
    have hholds := hinv.drain
    rw [hidle] at hholds
    exact absurd hholds hreq
  | requestWrite => exact ⟨rfl, rfl, rfl, rfl⟩

theorem passWrite_rule {len : Nat} (hinv : w.Inv) (hpending : w.drain.pending = some len)
    (hlen : 0 < len) (hstep : w.step .passWrite = some (w', e)) :
    Requested len w'.drain e ∧ (e = .ended → w.fifo.eos = true) ∧ Quiet w w' := by
  have hready : ∀ n, w.drain.ready = some n → n = len := by
    intro n hready
    rw [Call.pending_of_ready hready, Option.some.injEq] at hpending
    exact hpending
  cases step_cases hinv hstep with
  | writeEnded n hn heos => exact ⟨.ended rfl, fun _ => heos, rfl, rfl⟩
  | writeGranted n hn heos hlevel =>
    obtain rfl := hready n hn
    have hpos := StaticFIFO.writeGrant_pos hinv.fifo hlen hlevel
    have hle := StaticFIFO.writeGrant_le w.fifo n
    exact ⟨.granted _ _ hpos hle rfl, nofun, rfl, rfl⟩
  | writeSlept n hn =>
    obtain rfl := hready n hn
    exact ⟨.slept rfl, nofun, rfl, rfl⟩

theorem wakeWrite_rule {len : Nat} (hinv : w.Inv) (hpending : w.drain.pending = some len)
    (hstep : w.step .wakeWrite = some (w', e)) :
    e = .woken ∧ w'.drain.pending = some len ∧ Quiet w w' := by
  cases step_cases hinv hstep with
  | wakeWrite n hasleep =>
    rw [hasleep] at hpending
    exact ⟨rfl, hpending, rfl, rfl⟩

theorem failWrite_rule (hinv : w.Inv) (hstep : w.step .failWrite = some (w', e)) :
    e = .ended ∧ w'.drain = .idle ∧ Quiet w w' := by
  cases step_cases hinv hstep with
  | failWrite => exact ⟨rfl, rfl, rfl, rfl⟩

theorem store_rule {data len i : Nat} {b : UInt8} (hinv : w.Inv) (hholding : w.drain = .holding data len)
    (hi : i < len) (hstep : w.step (.store (data + i) b) = some (w', e)) :
    e = .stored ∧ w'.drain = .holding data len ∧
      slice w'.fifo.buffer data (i + 1) = slice w.fifo.buffer data i ++ [b] ∧ Quiet w w' := by
  cases step_cases hinv hstep with
  | store _ _ hfree =>
    have hgrant : w.InGrant (.store (data + i) b) := ⟨data, len, hholding, by omega, by omega⟩
    exact ⟨rfl, hholding, slice_update_succ _ _ _ _, content_store hinv hgrant, rfl⟩

theorem commitWrite_rule {data len n : Nat} (hinv : w.Inv) (hholding : w.drain = .holding data len)
    (hn : n ≤ len) (hstep : w.step (.commitWrite data n) = some (w', e)) :
    e = .wrote (slice w.fifo.buffer data n) ∧ w'.drain = .idle ∧
      w'.content = w.content ++ slice w.fifo.buffer data n ∧ w'.fifo.eos = w.fifo.eos := by
  have hholds := hinv.drain
  rw [hholding] at hholds
  obtain ⟨rfl, rfl⟩ := hholds
  cases step_cases hinv hstep with
  | commitWriteUnrequested _ _ _ hdata => exact absurd rfl hdata
  | commitWriteTooLarge _ _ hlen => omega
  | commitWrite _ _ hlen => exact ⟨rfl, rfl, content_commitWrite hinv hlen, rfl⟩

theorem endWrite_rule (hinv : w.Inv) (hstep : w.step .endWrite = some (w', e)) :
    e = .closed ∧ w'.drain = .idle ∧ w'.content = w.content ∧ w'.fifo.eos = true := by
  cases step_cases hinv hstep with
  | endWrite => exact ⟨rfl, rfl, rfl, rfl⟩

theorem drain_frame {a : Operation} (hinv : w.Inv) (hside : a.side = .source)
    (hstep : w.step a = some (w', e)) :
    (∃ notify, w'.drain = w.drain.notifyIf notify) ∧ w'.fifo.buffer = w.fifo.buffer := by
  cases step_cases hinv hstep with
  | commitRead => exact ⟨⟨_, rfl⟩, rfl⟩
  | endRead => exact ⟨⟨true, rfl⟩, rfl⟩
  | requestReadThrows | requestRead | readGranted | readEnded | readSlept | wakeRead | failRead
  | commitReadUnrequested | commitReadTooLarge => exact ⟨⟨false, rfl⟩, rfl⟩
  | _ => cases hside

end Drain

section Source

theorem requestRead_rule {len : Nat} (hinv : w.Inv) (hidle : w.source = .idle)
    (hstep : w.step (.requestRead len) = some (w', e)) :
    e = .entered ∧ w'.source.pending = some len ∧ Quiet w w' := by
  cases step_cases hinv hstep with
  | requestReadThrows _ _ hreq =>
    have hholds := hinv.source
    rw [hidle] at hholds
    exact absurd hholds hreq
  | requestRead => exact ⟨rfl, rfl, rfl, rfl⟩

theorem passRead_rule {len : Nat} (hinv : w.Inv) (hpending : w.source.pending = some len)
    (hlen : 0 < len) (hstep : w.step .passRead = some (w', e)) :
    Requested len w'.source e ∧ (e = .ended → w.content = [] ∧ w.fifo.eos = true) ∧ Quiet w w' := by
  have hready : ∀ n, w.source.ready = some n → n = len := by
    intro n hready
    rw [Call.pending_of_ready hready, Option.some.injEq] at hpending
    exact hpending
  cases step_cases hinv hstep with
  | readGranted n hn hlevel =>
    obtain rfl := hready n hn
    have hpos := StaticFIFO.readGrant_pos hinv.fifo hlen hlevel
    have hle := StaticFIFO.readGrant_le w.fifo n
    exact ⟨.granted _ _ hpos hle rfl, nofun, rfl, rfl⟩
  | readEnded n hn hlevel heos =>
    have hempty : w.content = [] := by
      rw [← List.length_eq_zero_iff, length_content]
      exact hlevel
    exact ⟨.ended rfl, fun _ => ⟨hempty, heos⟩, rfl, rfl⟩
  | readSlept n hn =>
    obtain rfl := hready n hn
    exact ⟨.slept rfl, nofun, rfl, rfl⟩

theorem wakeRead_rule {len : Nat} (hinv : w.Inv) (hpending : w.source.pending = some len)
    (hstep : w.step .wakeRead = some (w', e)) :
    e = .woken ∧ w'.source.pending = some len ∧ Quiet w w' := by
  cases step_cases hinv hstep with
  | wakeRead n hasleep =>
    rw [hasleep] at hpending
    exact ⟨rfl, hpending, rfl, rfl⟩

theorem failRead_rule (hinv : w.Inv) (hstep : w.step .failRead = some (w', e)) :
    e = .ended ∧ w'.source = .idle ∧ Quiet w w' := by
  cases step_cases hinv hstep with
  | failRead => exact ⟨rfl, rfl, rfl, rfl⟩

theorem le_of_holding {data len : Nat} (hinv : w.Inv) (hholding : w.source = .holding data len) :
    len ≤ w.content.length := by
  have hholds := hinv.source
  rw [hholding] at hholds
  rw [length_content, hholds.2]
  exact hinv.fifo.rdReq_le_level

theorem load_rule {data len i : Nat} (hinv : w.Inv) (hholding : w.source = .holding data len)
    (hi : i < len) : w.content.take (i + 1) = w.content.take i ++ [w.fifo.buffer (data + i)] := by
  have hslice := slice_of_holding hinv hholding
  have htake : ∀ n, n ≤ len → w.content.take n = slice w.fifo.buffer data n := by
    intro n hn
    rw [← take_slice hn, hslice, List.take_take, Nat.min_eq_left hn]
  rw [htake _ hi, htake _ (Nat.le_of_lt hi), slice_succ]

theorem commitRead_rule {data len n : Nat} (hinv : w.Inv) (hholding : w.source = .holding data len)
    (hn : n ≤ len) (hstep : w.step (.commitRead data n) = some (w', e)) :
    e = .took (w.content.take n) ∧ w'.source = .idle ∧ w'.content = w.content.drop n ∧
      w'.fifo.eos = w.fifo.eos := by
  have hholds := hinv.source
  rw [hholding] at hholds
  obtain ⟨rfl, rfl⟩ := hholds
  cases step_cases hinv hstep with
  | commitReadUnrequested _ _ _ hdata => exact absurd rfl hdata
  | commitReadTooLarge _ _ hlen => omega
  | commitRead _ _ hlen =>
    rw [take_content hinv hlen]
    exact ⟨rfl, rfl, content_commitRead hinv hlen, rfl⟩

theorem endRead_rule (hinv : w.Inv) (hstep : w.step .endRead = some (w', e)) :
    e = .closed ∧ w'.source = .idle ∧ w'.content = w.content ∧ w'.fifo.eos = true := by
  cases step_cases hinv hstep with
  | endRead => exact ⟨rfl, rfl, rfl, rfl⟩

theorem source_frame {a : Operation} (hinv : w.Inv) (hside : a.side = .drain)
    (hstep : w.step a = some (w', e)) : ∃ notify, w'.source = w.source.notifyIf notify := by
  cases step_cases hinv hstep with
  | commitWrite => exact ⟨_, rfl⟩
  | endWrite => exact ⟨true, rfl⟩
  | requestWriteThrows | requestWrite | writeEnded | writeGranted | writeSlept | wakeWrite | failWrite
  | store | commitWriteUnrequested | commitWriteTooLarge => exact ⟨false, rfl⟩
  | _ => cases hside

end Source

end World
