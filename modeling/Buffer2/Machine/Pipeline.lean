import Buffer2.Machine.Basic

/-!
This module contains a pipeline: an input that delivers a stream into a queue, and an output that
accepts what is in the queue. Each of them may stop for a reason of its own, and closes the queue after
that.
-/

inductive Stage
  | running
  | stopped (result : Nat)
  | ended (result : Nat)
  deriving DecidableEq, Repr

def Stage.result : Stage → Nat
  | .running => 0
  | .stopped result => result
  | .ended result => result

/--
`inFlight` has been delivered but is not in the queue yet, `outFlight` has been accepted but is still
in the queue.
-/
structure Pipeline (β : Type) where
  stream : List β
  delivered : List β
  inFlight : List β
  input : Stage
  content : List β
  eos : Bool
  outFlight : List β
  accepted : List β
  output : Stage

namespace Pipeline

variable {β : Type}

inductive Op
  | deliver (n : Nat)
  | write
  | stopInput (result : Nat)
  | failInput
  | endInput (result : Nat)
  | accept (n : Nat)
  | read
  | stopOutput (result : Nat)
  | failOutput
  | endOutput (result : Nat)

/--
An end that stops with the result `0` has seen the end of the stream, or the queue closed, unless it
just failed to notice anything.
-/
def Enabled (p : Pipeline β) (op : Op) : Prop :=
  match op with
  | .deliver _ => p.input = .running ∧ p.inFlight = []
  | .write => p.input = .running
  | .stopInput result =>
    p.input = .running ∧ p.inFlight = [] ∧ (result = 0 → p.stream = [] ∨ p.eos = true)
  | .failInput => p.input = .running ∧ p.inFlight = []
  | .endInput result => p.input = .stopped result
  | .accept _ => p.output = .running ∧ p.outFlight = []
  | .read => p.output = .running
  | .stopOutput result =>
    p.output = .running ∧ p.outFlight = [] ∧ (result = 0 → p.content = [] ∧ p.eos = true)
  | .failOutput => p.output = .running ∧ p.outFlight = []
  | .endOutput result => p.output = .stopped result

def next (p : Pipeline β) (op : Op) : Pipeline β :=
  match op with
  | .deliver n =>
    { p with
      stream := p.stream.drop n
      delivered := p.delivered ++ p.stream.take n
      inFlight := p.stream.take n }
  | .write =>
    { p with
      content := p.content ++ p.inFlight
      inFlight := [] }
  | .stopInput result => { p with input := .stopped result }
  | .failInput => { p with input := .stopped 0 }
  | .endInput result =>
    { p with
      input := .ended result
      eos := true }
  | .accept n =>
    { p with
      outFlight := p.content.take n
      accepted := p.accepted ++ p.content.take n }
  | .read =>
    { p with
      content := p.content.drop p.outFlight.length
      outFlight := [] }
  | .stopOutput result => { p with output := .stopped result }
  | .failOutput => { p with output := .stopped 0 }
  | .endOutput result =>
    { p with
      output := .ended result
      eos := true }

def machine (β : Type) : Machine (Pipeline β) Op Unit where
  step p op := some (p.next op, ())

def init (stream : List β) : Pipeline β where
  stream := stream
  delivered := []
  inFlight := []
  input := .running
  content := []
  eos := false
  outFlight := []
  accepted := []
  output := .running

def remaining (p : Pipeline β) : List β := p.content ++ p.inFlight ++ p.stream

def Harmless (p : Pipeline β) (op : Op) : Prop :=
  match op with
  | .failInput => p.stream = []
  | .failOutput => p.remaining = []
  | _ => True

def Finished (p : Pipeline β) : Prop := ∃ r r', p.input = .ended r ∧ p.output = .ended r'

structure Inv (input : List β) (p : Pipeline β) : Prop where
  flow : ∃ taken, input = taken ++ p.remaining ∧ p.delivered = taken ++ p.content ++ p.inFlight ∧
    p.accepted = taken ++ p.outFlight
  outFlight_prefix : p.outFlight <+: p.content
  outFlight_eq : p.output ≠ .running → p.outFlight = []
  inFlight_eq : p.input ≠ .running → p.inFlight = []

structure Complete (p : Pipeline β) : Prop where
  eos : p.eos = true → (∃ r, p.input = .ended r) ∨ ∃ r, p.output = .ended r
  input : p.input ≠ .running → p.input.result = 0 →
    p.stream = [] ∨ ∃ r, p.output = .ended r ∧ r ≠ 0
  output : p.output ≠ .running → p.output.result = 0 →
    p.content = [] ∧ ((∃ r, p.input = .ended r) ∨ p.stream = [] ∧ p.inFlight = [])

def Lost (p : Pipeline β) : Prop :=
  p.input ≠ .running ∧ p.stream ≠ [] ∨ p.output ≠ .running ∧ p.remaining ≠ []

variable {input : List β} {p : Pipeline β} {op : Op}

section Step

theorem inv_init (input : List β) : (init input).Inv input where
  flow := ⟨[], rfl, rfl, rfl⟩
  outFlight_prefix := List.prefix_rfl
  outFlight_eq _ := rfl
  inFlight_eq _ := rfl

theorem complete_init (input : List β) : (init input).Complete := by
  constructor <;> simp [init]

theorem Inv.next (h : p.Inv input) (hen : p.Enabled op) : (p.next op).Inv input := by
  obtain ⟨⟨taken, hinput, hdelivered, haccepted⟩, hprefix, hout, hin⟩ := h
  cases op with
  | deliver n =>
    obtain ⟨hrunning, hflight⟩ := hen
    refine ⟨⟨taken, ?_, ?_, haccepted⟩, hprefix, hout, fun h => absurd hrunning h⟩
    . simpa [remaining, Pipeline.next, hflight] using hinput
    . simp [Pipeline.next, hdelivered, hflight]
  | write =>
    refine ⟨⟨taken, ?_, ?_, haccepted⟩, hprefix.trans (List.prefix_append _ _), hout, fun _ => rfl⟩
    . simpa [remaining, Pipeline.next] using hinput
    . simp [Pipeline.next, hdelivered]
  | stopInput result =>
    exact ⟨⟨taken, hinput, hdelivered, haccepted⟩, hprefix, hout, fun _ => hen.2.1⟩
  | failInput =>
    exact ⟨⟨taken, hinput, hdelivered, haccepted⟩, hprefix, hout, fun _ => hen.2⟩
  | endInput result =>
    have hen : p.input = .stopped result := hen
    exact ⟨⟨taken, hinput, hdelivered, haccepted⟩, hprefix, hout, fun _ => hin (by simp [hen])⟩
  | accept n =>
    obtain ⟨hrunning, hflight⟩ := hen
    refine ⟨⟨taken, hinput, hdelivered, ?_⟩, List.take_prefix _ _, fun h => absurd hrunning h, hin⟩
    simp [Pipeline.next, haccepted, hflight]
  | read =>
    obtain ⟨rest, hrest⟩ := hprefix
    refine ⟨⟨taken ++ p.outFlight, ?_, ?_, ?_⟩, List.nil_prefix, fun _ => rfl, hin⟩
    . simpa [remaining, Pipeline.next, ← hrest] using hinput
    . simpa [Pipeline.next, ← hrest] using hdelivered
    . simpa [Pipeline.next] using haccepted
  | stopOutput result =>
    exact ⟨⟨taken, hinput, hdelivered, haccepted⟩, hprefix, fun _ => hen.2.1, hin⟩
  | failOutput =>
    exact ⟨⟨taken, hinput, hdelivered, haccepted⟩, hprefix, fun _ => hen.2, hin⟩
  | endOutput result =>
    have hen : p.output = .stopped result := hen
    exact ⟨⟨taken, hinput, hdelivered, haccepted⟩, hprefix, fun _ => hout (by simp [hen]), hin⟩

theorem Complete.next (h : p.Complete) (hen : p.Enabled op) (hharm : p.Harmless op) :
    (p.next op).Complete := by
  obtain ⟨heos, hinput, houtput⟩ := h
  cases op with
  | deliver n =>
    obtain ⟨hrunning, _⟩ := hen
    refine ⟨heos, fun h => absurd hrunning h, ?_⟩
    intro hstop hres
    obtain ⟨hcontent, hrest⟩ := houtput hstop hres
    refine ⟨hcontent, hrest.imp_right ?_⟩
    rintro ⟨hstream, _⟩
    simp [Pipeline.next, hstream]
  | write =>
    have hrunning : p.input = .running := hen
    refine ⟨heos, hinput, ?_⟩
    intro hstop hres
    obtain ⟨hcontent, hrest⟩ := houtput hstop hres
    obtain ⟨hstream, hflight⟩ := hrest.resolve_left (by simp [hrunning])
    exact ⟨by simp [Pipeline.next, hcontent, hflight], .inr ⟨hstream, rfl⟩⟩
  | stopInput result =>
    obtain ⟨hrunning, _, hreason⟩ := hen
    refine ⟨?_, ?_, ?_⟩
    . intro h
      exact .inr ((heos h).resolve_left (by simp [hrunning]))
    . intro _ hres
      cases hreason hres with
      | inl hstream => exact .inl hstream
      | inr h =>
        -- The output has closed the queue: it gave up, or it saw the end of the stream.
        obtain ⟨r, hended⟩ := (heos h).resolve_left (by simp [hrunning])
        by_cases hr : r = 0
        . obtain ⟨_, hrest⟩ := houtput (by simp [hended]) (by rw [hended]; exact hr)
          exact .inl (hrest.resolve_left (by simp [hrunning])).1
        . exact .inr ⟨r, hended, hr⟩
    . intro hstop hres
      obtain ⟨hcontent, hrest⟩ := houtput hstop hres
      exact ⟨hcontent, .inr (hrest.resolve_left (by simp [hrunning]))⟩
  | failInput =>
    obtain ⟨hrunning, _⟩ := hen
    refine ⟨?_, fun _ _ => .inl hharm, ?_⟩
    . intro h
      exact .inr ((heos h).resolve_left (by simp [hrunning]))
    . intro hstop hres
      obtain ⟨hcontent, hrest⟩ := houtput hstop hres
      exact ⟨hcontent, .inr (hrest.resolve_left (by simp [hrunning]))⟩
  | endInput result =>
    have hstopped : p.input = .stopped result := hen
    refine ⟨fun _ => .inl ⟨result, rfl⟩, ?_, ?_⟩
    . intro _ hres
      exact hinput (by simp [hstopped]) (by rw [hstopped]; exact hres)
    . intro hstop hres
      exact ⟨(houtput hstop hres).1, .inl ⟨result, rfl⟩⟩
  | accept n =>
    obtain ⟨hrunning, _⟩ := hen
    exact ⟨heos, hinput, fun h => absurd hrunning h⟩
  | read =>
    have hrunning : p.output = .running := hen
    exact ⟨heos, hinput, fun h => absurd hrunning h⟩
  | stopOutput result =>
    obtain ⟨hrunning, _, hreason⟩ := hen
    refine ⟨?_, ?_, ?_⟩
    . intro h
      exact .inl ((heos h).resolve_right (by simp [hrunning]))
    . intro hstop hres
      exact .inl ((hinput hstop hres).resolve_right (by simp [hrunning]))
    . intro _ hres
      obtain ⟨hcontent, h⟩ := hreason hres
      exact ⟨hcontent, .inl ((heos h).resolve_right (by simp [hrunning]))⟩
  | failOutput =>
    obtain ⟨hrunning, _⟩ := hen
    refine ⟨?_, ?_, ?_⟩
    . intro h
      exact .inl ((heos h).resolve_right (by simp [hrunning]))
    . intro hstop hres
      exact .inl ((hinput hstop hres).resolve_right (by simp [hrunning]))
    . intro _ _
      have hnothing : p.content = [] ∧ p.inFlight = [] ∧ p.stream = [] := by
        simpa [Harmless, remaining] using hharm
      exact ⟨hnothing.1, .inr ⟨hnothing.2.2, hnothing.2.1⟩⟩
  | endOutput result =>
    have hstopped : p.output = .stopped result := hen
    refine ⟨fun _ => .inr ⟨result, rfl⟩, ?_, ?_⟩
    . intro hstop hres
      exact .inl ((hinput hstop hres).resolve_right (by simp [hstopped]))
    . intro _ hres
      exact houtput (by simp [hstopped]) (by rw [hstopped]; exact hres)

theorem Lost.next (h : p.Lost) (hen : p.Enabled op) : (p.next op).Lost := by
  cases op with
  | deliver n =>
    obtain ⟨hrunning, hflight⟩ := hen
    refine .inr ?_
    obtain ⟨hstop, hrest⟩ := h.resolve_left fun h => h.1 hrunning
    exact ⟨hstop, by simpa [remaining, Pipeline.next, hflight] using hrest⟩
  | write =>
    have hrunning : p.input = .running := hen
    obtain ⟨hstop, hrest⟩ := h.resolve_left fun h => h.1 hrunning
    exact .inr ⟨hstop, by simpa [remaining, Pipeline.next] using hrest⟩
  | stopInput | failInput | endInput => exact h.imp (fun h => ⟨nofun, h.2⟩) id
  | accept n => exact .inl (h.resolve_right fun h => h.1 hen.1)
  | read =>
    have hrunning : p.output = .running := hen
    exact .inl (h.resolve_right fun h => h.1 hrunning)
  | stopOutput | failOutput | endOutput => exact h.imp id fun h => ⟨nofun, h.2⟩

theorem lost_of_not_harmless (h : ¬ p.Harmless op) : (p.next op).Lost := by
  cases op with
  | failInput => exact .inl ⟨nofun, h⟩
  | failOutput => exact .inr ⟨nofun, h⟩
  | _ => exact absurd trivial h

end Step

section Runs

variable {tr : List (Op × Unit)}

theorem complete_of_runs
    (h : (machine β).Runs (fun p op => p.Enabled op ∧ p.Harmless op) (init input) tr p) :
    p.Inv input ∧ p.Complete := by
  apply h.invariant (I := fun p => p.Inv input ∧ p.Complete)
  . rintro p op _ _ ⟨hinv, hcomplete⟩ ⟨hen, hharm⟩ ⟨⟩
    constructor
    . exact hinv.next hen
    . exact hcomplete.next hen hharm
  . exact ⟨inv_init input, complete_init input⟩

end Runs

section Result

theorem Inv.delivered_append_stream (h : p.Inv input) : p.delivered ++ p.stream = input := by
  obtain ⟨taken, hinput, hdelivered, _⟩ := h.flow
  rw [hdelivered, hinput, remaining]
  simp

theorem Inv.accepted_prefix (h : p.Inv input) : p.accepted <+: p.delivered := by
  obtain ⟨taken, _, hdelivered, haccepted⟩ := h.flow
  obtain ⟨rest, hrest⟩ := h.outFlight_prefix
  rw [hdelivered, haccepted, ← hrest]
  exact ⟨rest ++ p.inFlight, by simp⟩

theorem Inv.accepted_eq_delivered (h : p.Inv input) (hcomplete : p.Complete) (hfin : p.Finished)
    (hres : p.output.result = 0) : p.accepted = p.delivered := by
  obtain ⟨taken, _, hdelivered, haccepted⟩ := h.flow
  obtain ⟨r, r', hin, hout⟩ := hfin
  have hcontent := (hcomplete.output (by simp [hout]) hres).1
  have hinFlight := h.inFlight_eq (by simp [hin])
  have houtFlight := h.outFlight_eq (by simp [hout])
  rw [hdelivered, haccepted, hcontent, hinFlight, houtFlight]
  simp

theorem Inv.accepted_eq_input (h : p.Inv input) (hcomplete : p.Complete) (hfin : p.Finished)
    (hin : p.input.result = 0) (hout : p.output.result = 0) : p.accepted = input := by
  rw [h.accepted_eq_delivered hcomplete hfin hout]
  obtain ⟨taken, hinput, hdelivered, _⟩ := h.flow
  obtain ⟨r, r', hended, _⟩ := hfin
  have hstream : p.stream = [] := by
    refine (hcomplete.input (by simp [hended]) hin).resolve_right ?_
    rintro ⟨r'', heq, hne⟩
    rw [heq] at hout
    exact hne hout
  rw [hdelivered, hinput, remaining, hstream]
  simp

theorem Inv.accepted_ne_input (h : p.Inv input) (hfin : p.Finished) (hlost : p.Lost) :
    p.accepted ≠ input := by
  obtain ⟨taken, hinput, _, haccepted⟩ := h.flow
  obtain ⟨r, r', _, hended⟩ := hfin
  have houtFlight := h.outFlight_eq (by simp [hended])
  have hremaining : p.remaining ≠ [] := by
    cases hlost with
    | inl hin => simp [remaining, hin.2]
    | inr hout => exact hout.2
  rw [hinput, haccepted, houtFlight]
  simpa using hremaining.symm

end Result

end Pipeline
