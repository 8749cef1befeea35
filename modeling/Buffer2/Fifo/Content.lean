import Mathlib.Data.List.Infix
import Buffer2.Machine.Refinement
import Buffer2.Machine.Queue
import Buffer2.Fifo.Steps

/-!
This module contains the proof that the two threads see an ideal queue of bytes: a commit of the
writer appends to the queue, a commit of the reader removes from it, and no other step changes it.
-/

open Memory

namespace World

variable {c : Layout}

def content (w : World c) : List UInt8 :=
  window w.fifo.buffer c.bufferBegin c.bufferSize w.fifo.rdOffset w.fifo.level

def InGrant (w : World c) (a : Operation) : Prop :=
  match a with
  | .store addr _ => ∃ data len, w.drain = .holding data len ∧ data ≤ addr ∧ addr < data + len
  | _ => True

instance (w : World c) (a : Operation) : Decidable (w.InGrant a) :=
  match a with
  | .store addr _ =>
    match hdrain : w.drain with
    | .holding data len => decidable_of_iff (data ≤ addr ∧ addr < data + len) (by simp [InGrant, hdrain])
    | .idle | .entering _ | .asleep _ | .notified _ => .isFalse (by simp [InGrant, hdrain])
  | .requestWrite _ | .passWrite | .wakeWrite | .failWrite | .commitWrite _ _ | .endWrite => .isTrue trivial
  | .requestRead _ | .passRead | .wakeRead | .failRead | .commitRead _ _ | .endRead => .isTrue trivial

def queueLabel (x : Operation × Event) : Option (Queue.Op UInt8 × List UInt8) :=
  match x.2 with
  | .wrote bytes => some (.push bytes, bytes)
  | .took bytes => some (.pop bytes.length, bytes)
  | _ => none

def written (tr : List (Operation × Event)) : List UInt8 :=
  tr.flatMap fun x =>
    match x.2 with
    | .wrote bytes => bytes
    | _ => []

def taken (tr : List (Operation × Event)) : List UInt8 :=
  tr.flatMap fun x =>
    match x.2 with
    | .took bytes => bytes
    | _ => []

theorem written_append (tr tr' : List (Operation × Event)) :
    written (tr ++ tr') = written tr ++ written tr' :=
  List.flatMap_append

theorem taken_append (tr tr' : List (Operation × Event)) : taken (tr ++ tr') = taken tr ++ taken tr' :=
  List.flatMap_append

@[simp]
theorem length_content (w : World c) : w.content.length = w.fifo.level := length_window _ _ _ _ _

section Step

variable {w w' : World c} {a : Operation} {e : Event}

theorem content_store (h : w.Inv) {addr : Nat} {b : UInt8} (hgrant : w.InGrant (.store addr b)) :
    { w with fifo := w.fifo.store addr b }.content = w.content := by
  obtain ⟨data, len, hdrain, hge, hlt⟩ := hgrant
  have hholds := h.drain
  rw [hdrain] at hholds
  obtain ⟨rfl, rfl⟩ := hholds
  have hfree := h.fifo.wrReq_le_free
  have hend := h.fifo.wrReq_le_end
  have hpos := h.fifo.wrPos_eq
  have hoff := h.fifo.wrOffset_lt
  -- The grant starts right behind the queue and ends before it starts again.
  apply window_update_of_free h.fifo.rdOffset_lt h.fifo.level_le
  refine ⟨addr - w.fifo.wrPos, by omega, ?_⟩
  rw [← Nat.mod_add_mod, ← h.fifo.wrOffset_eq, Nat.mod_eq_of_lt (by omega)]
  omega

theorem content_commitWrite (h : w.Inv) {len : Nat} (hlen : len ≤ w.fifo.wrReq) {drain source : Call} :
    World.content { fifo := w.fifo.wrote len, drain, source } =
      w.content ++ slice w.fifo.buffer w.fifo.wrPos len := by
  have hend := h.fifo.wrReq_le_end
  have hoff := h.fifo.wrOffset_lt
  have hslice : slice w.fifo.buffer w.fifo.wrPos len =
      window w.fifo.buffer c.bufferBegin c.bufferSize (w.fifo.rdOffset + w.fifo.level) len := by
    rw [← window_mod, ← h.fifo.wrOffset_eq, window_eq_slice (by omega), ← h.fifo.wrPos_eq]
  rw [hslice]
  exact window_add _ _ _ _ _ _

theorem take_content (h : w.Inv) {n : Nat} (hn : n ≤ w.fifo.rdReq) :
    w.content.take n = slice w.fifo.buffer w.fifo.rdPos n := by
  have hlevel := h.fifo.rdReq_le_level
  have hend := h.fifo.rdReq_le_end
  have hoff := h.fifo.rdOffset_lt
  unfold content
  rw [show w.fifo.level = n + (w.fifo.level - n) by omega, window_add]
  rw [List.take_append_of_le_length (by simp), List.take_of_length_le (by simp)]
  rw [window_eq_slice (by omega), ← h.fifo.rdPos_eq]

theorem content_commitRead (h : w.Inv) {len : Nat} (hlen : len ≤ w.fifo.rdReq) {drain source : Call} :
    World.content { fifo := w.fifo.took len, drain, source } = w.content.drop len := by
  have hlevel := h.fifo.rdReq_le_level
  unfold content
  rw [show w.fifo.level = len + (w.fifo.level - len) by omega, window_add]
  rw [List.drop_append_of_le_length (by simp), List.drop_of_length_le (by simp), List.nil_append]
  rw [h.fifo.took_offset hlen, window_mod]
  simp

theorem simulates_queue (h : w.Inv) (hgrant : w.InGrant a) (hstep : w.step a = some (w', e)) :
    Machine.Simulates (Queue.machine UInt8) Machine.always content queueLabel w (a, e) w' := by
  cases step_cases h hstep with
  | store addr b => exact content_store h hgrant
  | commitWrite len hfree hlen =>
    refine ⟨trivial, ?_⟩
    rw [Queue.machine_push, content_commitWrite h hlen]
  | commitRead len hfree hlen =>
    have hlevel := h.fifo.rdReq_le_level
    refine ⟨trivial, ?_⟩
    rw [length_slice, Queue.machine_pop (by rw [length_content]; omega)]
    rw [take_content h hlen, content_commitRead h hlen]
  | _ => rfl

theorem drain_step (h : w.Inv) (hgrant : w.InGrant a) (hside : a.side = .drain)
    (hstep : Step w a e w') {data len : Nat} (hsource : w.source = .holding data len) :
    w'.source = .holding data len ∧ w.content <+: w'.content := by
  cases hstep with
  | store addr b hfree =>
    refine ⟨hsource, ?_⟩
    rw [content_store h hgrant]
  | commitWrite n hfree hn =>
    refine ⟨by simpa using hsource, ?_⟩
    rw [content_commitWrite h hn]
    exact List.prefix_append _ _
  | endWrite => exact ⟨by simpa using hsource, List.prefix_rfl⟩
  | requestWriteThrows | requestWrite | writeEnded | writeGranted | writeSlept | wakeWrite
  | failWrite | commitWriteUnrequested | commitWriteTooLarge => exact ⟨hsource, List.prefix_rfl⟩
  | _ => cases hside

end Step

section Runs

variable {w w' : World c} {tr : List (Operation × Event)}

theorem pushed_queueLabel (tr : List (Operation × Event)) :
    Queue.pushed (tr.filterMap queueLabel) = written tr := by
  induction tr with
  | nil => rfl
  | cons x tr ih =>
    obtain ⟨a, e⟩ := x
    cases e <;> simpa [List.filterMap_cons, queueLabel, Queue.pushed, written] using ih

theorem popped_queueLabel (tr : List (Operation × Event)) :
    Queue.popped (tr.filterMap queueLabel) = taken tr := by
  induction tr with
  | nil => rfl
  | cons x tr ih =>
    obtain ⟨a, e⟩ := x
    cases e <;> simpa [List.filterMap_cons, queueLabel, Queue.popped, taken] using ih

theorem runs_queue (h : w.Inv) (hruns : (machine c).Runs InGrant w tr w') :
    (Queue.machine UInt8).Runs Machine.always w.content (tr.filterMap queueLabel) w'.content :=
  hruns.refine (fun _ _ _ _ hw _ hstep => hw.step hstep)
    (fun _ _ _ _ hw hgrant hstep => simulates_queue hw hgrant hstep) h

theorem content_conservation (h : w.Inv) (hruns : (machine c).Runs InGrant w tr w') :
    w.content ++ written tr = taken tr ++ w'.content := by
  have hqueue := Queue.conservation (runs_queue h hruns)
  rwa [pushed_queueLabel, popped_queueLabel] at hqueue

@[simp]
theorem content_init (c : Layout) : (init c).content = [] := rfl

theorem written_eq (hruns : (machine c).Runs InGrant (init c) tr w) :
    written tr = taken tr ++ w.content := by
  simpa using content_conservation (inv_init c) hruns

theorem slice_of_holding (h : w.Inv) {data len : Nat} (hsource : w.source = .holding data len) :
    slice w.fifo.buffer data len = w.content.take len := by
  have hholds := h.source
  rw [hsource] at hholds
  obtain ⟨rfl, rfl⟩ := hholds
  exact (take_content h (Nat.le_refl _)).symm

theorem slice_of_drain_runs (h : w.Inv) {data len : Nat} (hsource : w.source = .holding data len)
    (hruns : (machine c).Runs (fun w a => w.InGrant a ∧ a.side = .drain) w tr w') :
    slice w'.fifo.buffer data len = slice w.fifo.buffer data len := by
  have hkeep : w'.source = .holding data len ∧ w.content <+: w'.content := by
    apply h.invariant hruns (I := fun v => v.source = .holding data len ∧ w.content <+: v.content)
    . rintro v a v' e hv ⟨hvsource, hvprefix⟩ ⟨hgrant, hside⟩ hstep
      obtain ⟨hvsource', hvprefix'⟩ := drain_step hv hgrant hside hstep hvsource
      constructor
      . exact hvsource'
      . exact hvprefix.trans hvprefix'
    . exact ⟨hsource, List.prefix_rfl⟩
  obtain ⟨hsource', rest, hrest⟩ := hkeep
  have hinv' := h.runs hruns
  have hlen : len ≤ w.content.length := by
    have hholds := h.source
    rw [hsource] at hholds
    rw [length_content, hholds.2]
    exact h.fifo.rdReq_le_level
  rw [slice_of_holding hinv' hsource', slice_of_holding h hsource, ← hrest,
    List.take_append_of_le_length hlen]

end Runs

end World
