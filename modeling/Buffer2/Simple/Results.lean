import Mathlib.Algebra.GroupWithZero.Nat
import Buffer2.Simple.RoundTrip

/-!
This module contains the proof that the interleaving does not matter to the calls of `SimpleSource::read`:
what they return is a function of the stream and of the lengths.
-/

namespace Simple

/--
What calls of `read` with the lengths `lens` return when `data` is what can still be read.
-/
def readAll (data : List UInt8) (lens : List Nat) : List ReadCall :=
  match lens with
  | [] => []
  | len :: lens =>
    { len, dst := data.take len, result := min len data.length } :: readAll (data.drop len) lens

theorem readAll_append (data : List UInt8) (lens lens' : List Nat) :
    readAll data (lens ++ lens') = readAll data lens ++ readAll (data.drop lens.sum) lens' := by
  induction lens generalizing data with
  | nil => rfl
  | cons len lens ih =>
    rw [List.cons_append, readAll, ih, List.drop_drop, readAll, List.cons_append, List.sum_cons]

theorem flatMap_readAll (data : List UInt8) (lens : List Nat) :
    ((readAll data lens).flatMap fun x => x.dst) = data.take lens.sum := by
  induction lens generalizing data with
  | nil => rfl
  | cons len lens ih => rw [readAll, List.flatMap_cons, ih, List.sum_cons, List.take_add]

variable {c : Layout} {s s' : Simple c} {writes : List (List UInt8)} {reads : List Nat}
variable {ops : List (Operation × Event)} {x : CopyChoice ⊕ CopyChoice} {l : Option (Operation × Event)}
variable {tr : List ((CopyChoice ⊕ CopyChoice) × Option (Operation × Event))}

theorem current_flatten (h : s.left.Holds s.shared) :
    s.left.copied <+: (current s.left).flatten := by
  unfold current
  split
  . next hpos =>
    simp only [SimpleDrain.Holds, hpos] at h
    rw [h.1]
    exact List.nil_prefix
  . next hpos =>
    simp only [SimpleDrain.Holds, hpos] at h
    rw [h.2.1]
    exact List.nil_prefix
  . simp

theorem Ledger.received_prefix (hinv : s.Inv) (h : Ledger writes ops s) (hopen : s.right.pos ≠ .closed) :
    received s.right <+: writes.flatten := by
  have hall : ∀ y ∈ s.left.log, y.src.take (y.src.length - y.result) = y.src := by
    intro y hy
    have hzero : y.result = 0 := Nat.eq_zero_of_not_pos fun hpos => hopen ((h.partialWrite y hy).2 hpos)
    rw [hzero, Nat.sub_zero, List.take_length]
  have hreceived : received s.right <+: World.written ops := by
    rw [h.content, ← h.taken]
    exact (List.prefix_append_right_inj _).mpr hinv.right.outFlight_prefix
  refine hreceived.trans ?_
  rw [h.written, committed, List.flatMap_congr hall, ← h.writes, List.flatten_append,
    List.flatten_append, List.append_assoc, ← List.flatMap_def]
  apply (List.prefix_append_right_inj _).mpr
  exact (current_flatten hinv.left).trans (List.prefix_append _ _)

def currentLen (p : SimpleSource) : List Nat :=
  match p.pos with
  | .idle | .closed => []
  | _ => [p.olen]

theorem currentLen_of_body {p : SimpleSource} (h : p.pos = .loop ∨ p.inBody = true) :
    currentLen p = [p.olen] := by
  unfold currentLen
  unfold SimpleSource.inBody at h
  split <;> simp_all

structure Served (writes : List (List UInt8)) (reads : List Nat) (p : SimpleSource) : Prop where
  lens : p.log.map (·.len) ++ currentLen p ++ p.script = reads
  log : p.log = readAll writes.flatten (p.log.map (·.len))

theorem dst_eq {data dst : List UInt8} {n len : Nat} (hbegins : data.take n ++ dst <+: data)
    (hle : dst.length ≤ len) (hall : dst.length < len → data.take n ++ dst = data) :
    dst = (data.drop n).take len := by
  have hdst : dst <+: data.drop n := by
    rw [← List.prefix_append_right_inj (data.take n), List.take_append_drop]
    exact hbegins
  by_cases hlt : dst.length < len
  . have heq : dst = data.drop n := by
      apply (List.append_right_inj (data.take n)).mp
      rw [hall hlt, List.take_append_drop]
    rw [← heq, List.take_of_length_le hle]
  . have hlen : dst.length = len := by omega
    rw [← hlen]
    exact List.prefix_iff_eq_take.mp hdst

theorem Served.of_ret (h : Served writes reads s.right) {p' : SimpleSource}
    (hp' : p' = s.right.ret s.right.dst.length) (hpos : s.right.pos = .loop ∨ s.right.inBody = true)
    (hlen : s.right.dst.length + s.right.len = s.right.olen)
    (hbegins : received s.right <+: writes.flatten)
    (hshort : s.right.dst.length < s.right.olen → received s.right = writes.flatten) :
    Served writes reads p' := by
  have hlens := h.lens
  have hlog := h.log
  have hreceived : received s.right =
      writes.flatten.take (s.right.log.map (·.len)).sum ++ s.right.dst := by
    rw [received]
    congr 1
    conv_lhs => rw [hlog]
    exact flatMap_readAll _ _
  rw [hreceived] at hbegins hshort
  have hdst := dst_eq hbegins (by omega) hshort
  rw [currentLen_of_body hpos] at hlens
  subst hp'
  constructor
  . simpa [SimpleSource.ret, currentLen] using hlens
  . simp only [SimpleSource.ret, List.map_append, List.map_singleton, readAll_append]
    rw [← hlog]
    congr 1
    simp only [readAll, ← hdst]
    congr 2
    have hlength := congrArg List.length hdst
    rw [List.length_take] at hlength
    exact hlength

theorem Served.read_step (hinv : s.Inv) (hledger : Ledger writes ops s) (hinv' : s'.Inv)
    (hledger' : Ledger writes (ops ++ l.toList) s') (h : Served writes reads s.right)
    (hstep : SimpleSource.Step s.shared s.right s'.shared s'.right l) :
    Served writes reads s'.right := by
  obtain ⟨w', p', q'⟩ := s'
  have hlens := h.lens
  have hlog := h.log
  cases hstep with
  | call len script hpos hscript => exact ⟨by simpa [currentLen, hpos, hscript] using hlens, hlog⟩
  | body pos hpos hpos' =>
    rw [currentLen_of_body hpos] at hlens
    refine ⟨?_, hlog⟩
    rw [currentLen_of_body (.inr hpos')]
    exact hlens
  | copied src blen hpos =>
    rw [currentLen_of_body (.inr hpos)] at hlens
    exact ⟨hlens, hlog⟩
  | commit blen hpos =>
    rw [currentLen_of_body (.inr hpos)] at hlens
    exact ⟨hlens, hlog⟩
  | ret hpos hlen hreason =>
    apply h.of_ret rfl hpos hlen
    . exact hledger.received_prefix hinv (read_not_closed_of_body hpos)
    . intro hlt
      have hmem : ({ len := s.right.olen, dst := s.right.dst, result := s.right.dst.length } : ReadCall) ∈
          (s.right.ret s.right.dst.length).log := by simp [SimpleSource.ret]
      have hreceived := received_eq_flatten hinv' hledger' hmem hlt
      simpa [received, SimpleSource.ret] using hreceived
  | close hpos => exact ⟨by simpa [currentLen, hpos] using hlens, hlog⟩

theorem served_of_runs (hruns : (machine c).Runs NoWaitFails (init c writes reads) tr s) :
    Served writes reads s.right := by
  have hboth : (machine c).Runs NoWaitFails (init c writes reads) tr s ∧ Served writes reads s.right := by
    apply hruns.history (I := fun tr s =>
      (machine c).Runs NoWaitFails (init c writes reads) tr s ∧ Served writes reads s.right)
    . rintro tr s x s' l ⟨hpast, hserved⟩ hx hstep
      refine ⟨hpast.snoc hx hstep, ?_⟩
      obtain ⟨hinv, hledger⟩ := ledger_of_runs hpast
      obtain ⟨hinv', hledger'⟩ := ledger_of_runs (hpast.snoc hx hstep)
      rw [Machine.calls_append] at hledger'
      cases (hinv.step hx hstep).2 with
      | write _ hright =>
        rw [hright]
        exact hserved
      | read hone => exact hserved.read_step hinv hledger hinv' hledger' hone
    . exact ⟨.nil _, rfl, rfl⟩
  exact hboth.2

theorem resume_pos_ne_closed (p : SimpleSource) (e : Event) : (p.resume e).pos ≠ .closed := by
  unfold SimpleSource.resume SimpleSource.ret
  split
  . simp
  . split <;> simp
  . simp
  . simp

theorem script_nil_step (h : s.right.pos = .closed → s.right.script = [])
    (hstep : (machine c).step s x = some (s', l)) : s'.right.pos = .closed → s'.right.script = [] := by
  cases x with
  | inl x =>
    rw [(Machine.compose_inl hstep).2]
    exact h
  | inr x =>
    obtain ⟨hprogram, _⟩ := Machine.compose_inr hstep
    generalize s'.shared = w', s'.right = p' at hprogram ⊢
    cases hprogram with
    | own hmove =>
      intro hclosed
      simp only [SimpleSource.read] at hmove
      split at hmove
      . split at hmove <;> cases hmove
        cases hclosed
      . split at hmove <;> cases hmove
        cases hclosed
      . cases hmove
      . cases hmove
      . cases hmove
      . split at hmove <;> cases hmove <;> cases hclosed
      . cases hmove
      . cases hmove
    | call hmove =>
      intro hclosed
      simp only [SimpleSource.read] at hmove
      split at hmove
      . split at hmove
        . next hscript =>
          cases hmove
          exact hscript
        . cases hmove
      . split at hmove <;> cases hmove
        exact absurd hclosed (resume_pos_ne_closed _ _)
      . cases hmove
        exact absurd hclosed (resume_pos_ne_closed _ _)
      . cases hmove
        exact absurd hclosed (resume_pos_ne_closed _ _)
      . cases hmove
        exact absurd hclosed (resume_pos_ne_closed _ _)
      . split at hmove <;> cases hmove
      . cases hmove
        simp only [SimpleSource.resumeCommit] at hclosed
        split at hclosed <;> cases hclosed
      . cases hmove

theorem log_of_closed (hruns : (machine c).Runs NoWaitFails (init c writes reads) tr s)
    (hclosed : s.right.pos = .closed) : s.right.log = readAll writes.flatten reads := by
  have hserved := served_of_runs hruns
  have hscript : s.right.pos = .closed → s.right.script = [] := by
    apply hruns.invariant (I := fun s => s.right.pos = .closed → s.right.script = [])
    . exact fun _ _ _ _ h _ hstep => script_nil_step h hstep
    . nofun
  have hlens := hserved.lens
  simp only [currentLen, hclosed, hscript hclosed, List.append_nil] at hlens
  rw [← hlens]
  exact hserved.log

/--
The calls of `read` return what the stream says, whatever the two threads do in between.
-/
theorem log_eq_readAll (hruns : (machine c).Runs NoWaitFails (init c writes reads) tr s) :
    s.right.log <+: readAll writes.flatten reads ∧
      (s.right.pos = .closed → s.right.log = readAll writes.flatten reads) := by
  have hserved := served_of_runs hruns
  refine ⟨?_, log_of_closed hruns⟩
  rw [← hserved.lens, List.append_assoc, readAll_append, ← hserved.log]
  exact List.prefix_append _ _

theorem log_eq_readAll_twoBytes :
    ∃ tr s, (machine .twoBytes).Runs NoWaitFails (init .twoBytes [[7], [8]] [1]) tr s ∧
      s.left.pos = .loop ∧ s.right.log = readAll [7, 8] [1] := by
  have hruns : (machine .twoBytes).Runs NoWaitFails (init .twoBytes [[7], [8]] [1])
      [(.inl .run, none), (.inl .run, some (.requestWrite 1, .entered)),
        (.inl .run, some (.passWrite, .granted 4096 1)), (.inl .run, some (.store 4096 7, .stored)),
        (.inl .run, none), (.inl .run, some (.commitWrite 4096 1, .wrote [7])), (.inr .run, none),
        (.inr .run, some (.requestRead 1, .entered)), (.inr .run, some (.passRead, .granted 4096 1)),
        (.inr .run, none), (.inr .run, none), (.inr .run, some (.commitRead 4096 1, .took [7])),
        (.inr .run, none), (.inr .run, some (.endRead, .closed))] _ :=
    .of_exec (by simp [NoWaitFails]) rfl
  exact ⟨_, _, hruns, rfl, (log_eq_readAll hruns).2 rfl⟩

end Simple
