import Buffer2.Workers.Steps
import Buffer2.Fifo.Content

/-!
This module contains the proofs about the lengths that the workers ask for and get back: with a
positive request size, no request is empty and no empty range is granted.
-/

namespace World

variable {c : Layout}

def Positive (_ : World c) (a : Operation) : Prop :=
  match a with
  | .requestWrite len => 0 < len
  | .requestRead len => 0 < len
  | _ => True

def ReturnsZero (e : Event) : Prop := e = .ended ∨ ∃ data, e = .granted data 0

def IsClose (a : Operation) : Prop := a = .endWrite ∨ a = .endRead

/--
No request is for 0 bytes. One that returns 0 comes after the end of one of the sides, unless its
`Wait` has failed.
-/
structure MeetsContract (tr : List (Operation × Event)) : Prop where
  request : ∀ x ∈ tr, ∀ len, x.1 = .requestWrite len ∨ x.1 = .requestRead len → 0 < len
  zero : ∀ earlier x later, tr = earlier ++ x :: later → ReturnsZero x.2 →
    x.1 ≠ .failWrite → x.1 ≠ .failRead → ∃ y ∈ earlier, IsClose y.1

structure Contract (tr : List (Operation × Event)) (w : World c) : Prop where
  meets : MeetsContract tr
  drain (len : Nat) : w.drain.pending = some len → 0 < len
  source (len : Nat) : w.source.pending = some len → 0 < len
  closed : w.fifo.eos = true → ∃ y ∈ tr, IsClose y.1

namespace Contract

variable {tr : List (Operation × Event)} {w w' : World c} {a : Operation} {e : Event}

theorem init (c : Layout) : Contract [] (World.init c) := by
  constructor
  . constructor
    . simp
    . intro earlier x later h
      simp at h
  . simp [World.init, Call.pending]
  . simp [World.init, Call.pending]
  . simp [World.init]

theorem returnsZero_of_step (h : Contract tr w) (hinv : w.Inv) (hstep : Step w a e w')
    (hzero : ReturnsZero e) (hwrite : a ≠ .failWrite) (hread : a ≠ .failRead) : w.fifo.eos = true := by
  cases hstep with
  | writeEnded len hready heos => exact heos
  | readEnded len hready hlevel heos => exact heos
  | failWrite => contradiction
  | failRead => contradiction
  | writeGranted len hready heos hlevel =>
    have hpos := StaticFIFO.writeGrant_pos hinv.fifo (h.drain len (Call.pending_of_ready hready)) hlevel
    obtain hended | ⟨data, hgranted⟩ := hzero
    . cases hended
    . simp only [Event.granted.injEq] at hgranted
      omega
  | readGranted len hready hlevel =>
    have hpos := StaticFIFO.readGrant_pos hinv.fifo (h.source len (Call.pending_of_ready hready)) hlevel
    obtain hended | ⟨data, hgranted⟩ := hzero
    . cases hended
    . simp only [Event.granted.injEq] at hgranted
      omega
  | _ => simp [ReturnsZero] at hzero

theorem meets_of_step (h : Contract tr w) (hinv : w.Inv) (hguard : w.Positive a)
    (hstep : Step w a e w') : MeetsContract (tr ++ [(a, e)]) := by
  constructor
  . intro x hx len hlen
    simp only [List.mem_append, List.mem_singleton] at hx
    cases hx with
    | inl hx => exact h.meets.request x hx len hlen
    | inr hx =>
      subst hx
      obtain hlen | hlen := hlen
      . simp only at hlen
        subst hlen
        exact hguard
      . simp only at hlen
        subst hlen
        exact hguard
  . intro earlier x later heq hzero hwrite hread
    cases List.eq_nil_or_concat later with
    | inl hnil =>
      subst hnil
      obtain ⟨rfl, hx⟩ := List.append_inj' heq rfl
      simp only [List.cons.injEq, and_true] at hx
      subst hx
      exact h.closed (h.returnsZero_of_step hinv hstep hzero hwrite hread)
    | inr hlast =>
      obtain ⟨later', y, rfl⟩ := hlast
      have hsplit : tr ++ [(a, e)] = (earlier ++ x :: later') ++ [y] := by
        rw [heq, List.concat_eq_append, List.append_assoc, List.cons_append]
      have hprior := List.append_inj_left' hsplit rfl
      exact h.meets.zero earlier x later' hprior hzero hwrite hread

theorem closed_of_step (h : Contract tr w) (hstep : Step w a e w') (heos : w'.fifo.eos = true) :
    ∃ y ∈ tr ++ [(a, e)], IsClose y.1 := by
  by_cases hclose : IsClose a
  . exact ⟨(a, e), by simp, hclose⟩
  . have hold : w.fifo.eos = true := by
      cases hstep with
      | endWrite => exact absurd (.inl rfl) hclose
      | endRead => exact absurd (.inr rfl) hclose
      | _ => exact heos
    obtain ⟨y, hy, hyclose⟩ := h.closed hold
    exact ⟨y, List.mem_append_left _ hy, hyclose⟩

theorem pending_of_step (h : Contract tr w) (hguard : w.Positive a) (hstep : Step w a e w') :
    (∀ len, w'.drain.pending = some len → 0 < len) ∧ ∀ len, w'.source.pending = some len → 0 < len := by
  have hdrain := h.drain
  have hsource := h.source
  cases hstep with
  | requestWrite len =>
    refine ⟨?_, hsource⟩
    rintro n hn
    cases hn
    exact hguard
  | requestRead len =>
    refine ⟨hdrain, ?_⟩
    rintro n hn
    cases hn
    exact hguard
  | writeEnded | writeGranted | failWrite => exact ⟨by simp [Call.pending], hsource⟩
  | readEnded | readGranted | failRead => exact ⟨hdrain, by simp [Call.pending]⟩
  | writeSlept len hready =>
    rw [Call.pending_of_ready hready] at hdrain
    exact ⟨hdrain, hsource⟩
  | readSlept len hready =>
    rw [Call.pending_of_ready hready] at hsource
    exact ⟨hdrain, hsource⟩
  | wakeWrite len hasleep =>
    rw [hasleep] at hdrain
    exact ⟨hdrain, hsource⟩
  | wakeRead len hasleep =>
    rw [hasleep] at hsource
    exact ⟨hdrain, hsource⟩
  | commitWrite => exact ⟨by simp [Call.pending], by simpa using hsource⟩
  | commitRead => exact ⟨by simpa using hdrain, by simp [Call.pending]⟩
  | endWrite => exact ⟨by simp [Call.pending], by simpa using hsource⟩
  | endRead => exact ⟨by simpa using hdrain, by simp [Call.pending]⟩
  | _ => exact ⟨hdrain, hsource⟩

theorem next (h : Contract tr w) (hinv : w.Inv) (hguard : w.Positive a) (hstep : Step w a e w') :
    Contract (tr ++ [(a, e)]) w' where
  meets := h.meets_of_step hinv hguard hstep
  drain := (h.pending_of_step hguard hstep).1
  source := (h.pending_of_step hguard hstep).2
  closed := h.closed_of_step hstep

end Contract

theorem meetsContract_of_runs {tr : List (Operation × Event)} {w : World c}
    (hruns : (machine c).Runs Positive (init c) tr w) : MeetsContract tr := by
  have hcontract : Contract tr w := by
    apply (inv_init c).history hruns
    . intro tr v a v' e hinv hv hguard hstep
      exact hv.next hinv hguard hstep
    . apply Contract.init
  exact hcontract.meets

end World

namespace Workers

variable {c : Layout} {requestSize : Nat}

theorem positive_of_move {s s' : Workers c} {x : Choice ⊕ Choice} {a : Operation} {e : Event}
    (hsize : 0 < requestSize) (hstep : (machine c requestSize).step s x = some (s', some (a, e))) :
    s.shared.Positive a := by
  cases x with
  | inl x =>
    obtain ⟨resume, hmove⟩ := (Machine.compose_inl hstep).1.exists_move
    cases InputWorker.move_cases hmove with
    | requestWrite => exact hsize
    | _ => trivial
  | inr x =>
    obtain ⟨resume, hmove⟩ := (Machine.compose_inr hstep).1.exists_move
    cases OutputWorker.move_cases hmove with
    | requestRead => exact hsize
    | _ => trivial

theorem calls_positive (hsize : 0 < requestSize) {G : Workers c → Choice ⊕ Choice → Prop}
    {tr : List ((Choice ⊕ Choice) × Option (Operation × Event))} {s s' : Workers c}
    (hruns : (machine c requestSize).Runs G s tr s') :
    (World.machine c).Runs World.Positive s.shared (Machine.calls tr) s'.shared := by
  apply hruns.refine (I := fun _ => True)
  . intro _ _ _ _ _ _ _
    trivial
  . intro s x s' l _ _ hstep
    have hperforms := Machine.compose_performs hstep
    cases l with
    | none => exact hperforms
    | some y => exact ⟨positive_of_move hsize hstep, hperforms⟩
  . trivial

theorem meetsContract (hsize : 0 < requestSize) {G : Workers c → Choice ⊕ Choice → Prop}
    {stream : List UInt8} {tr : List ((Choice ⊕ Choice) × Option (Operation × Event))} {s : Workers c}
    (hruns : (machine c requestSize).Runs G (init c stream) tr s) :
    World.MeetsContract (Machine.calls tr) := by
  apply World.meetsContract_of_runs
  exact calls_positive hsize hruns

end Workers
