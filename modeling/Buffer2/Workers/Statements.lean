import Buffer2.Fifo.Statements
import Buffer2.Machine.Threads
import Buffer2.Workers.Termination

/-!
This module contains the two workers with the functions of the FIFO statement by statement, and the proof that
they do what the workers do whose calls are atomic.
-/

namespace Workers

variable {c : Layout} {requestSize : Nat}

def sections (c : Layout) (requestSize : Nat) :
    Sections (Workers c) (Choice ⊕ Choice) (Option (Operation × Event))
      (Inside Operation Event Point InputWorker OutputWorker) Side :=
  (World.sections c).compose (fun w => w.fifo.buffer) { move := fun _ => InputWorker.move requestSize }
    { move := OutputWorker.move requestSize } .drain .source

theorem runs_input (c : Layout) (requestSize : Nat) :
    (World.sections c).Runs (ν := Nat → UInt8) .drain { move := fun _ => InputWorker.move requestSize } where
  thread v p x a resume hmove := by
    cases InputWorker.move_cases hmove <;> rfl
  blind v v' p x a resume hmove := hmove

theorem runs_output (c : Layout) (requestSize : Nat) :
    (World.sections c).Runs .source { move := OutputWorker.move requestSize } where
  thread v p x a resume hmove := by
    cases OutputWorker.move_cases hmove <;> rfl
  blind v v' p x a resume hmove := by
    cases OutputWorker.move_cases hmove with
    | requestRead hpos | passRead hpos | wakeRead hpos | failRead hpos | commitRead _ _ hpos | endRead hpos =>
      simp [OutputWorker.move, hpos]

theorem atomic_sections (c : Layout) (requestSize : Nat) :
    (sections c requestSize).Atomic (machine c requestSize) := by
  apply (World.atomic_sections c).compose
  . exact fun _ _ _ _ => World.buffer_stmt
  . exact runs_input c requestSize
  . exact runs_output c requestSize
  . decide

def statements (c : Layout) (requestSize : Nat) :
    Machine
      (Sections.State (Workers c) (Choice ⊕ Choice) (Inside Operation Event Point InputWorker OutputWorker))
      (Sections.Action (Choice ⊕ Choice)) (Option ((Choice ⊕ Choice) × Option (Operation × Event))) :=
  (sections c requestSize).machine (machine c requestSize)

/--
It makes no difference to the workers that the other one can be anywhere in a function of the FIFO, and from
anywhere both can come to their ends.
-/
theorem interleavings_iff (hsize : 0 < requestSize) (stream : List UInt8) :
    (∀ acts s, (∃ tr, (statements c requestSize).Runs Machine.always (.init (init c stream)) tr (.init s) ∧
      Sections.actions tr = acts) ↔ (machine c requestSize).Runs Machine.always (init c stream) acts s) ∧
    ∀ tr f, (statements c requestSize).Runs Machine.always (.init (init c stream)) tr f →
      ∃ tr' s, (statements c requestSize).Runs Machine.always f tr' (.init s) ∧ s.Finished := by
  have hatomic := atomic_sections c requestSize
  constructor
  . exact fun acts s => Sections.runs_iff hatomic
  . intro tr f hruns
    obtain ⟨tr₁, s₁, hleave⟩ := Sections.exists_leave hatomic hruns
    have hruns₁ := (Sections.runs_iff hatomic).mp ⟨tr ++ tr₁, hruns.append hleave, rfl⟩
    have hlive : Live requestSize s₁.shared s₁.left s₁.right := by
      apply hruns₁.invariant (I := fun s => Live requestSize s.shared s.left s.right)
      . exact fun _ _ _ _ h _ hstep => (live_step hsize h hstep).1
      . exact live_init c requestSize stream
    obtain ⟨acts, s, hrest, hfin⟩ :=
      (amortized_proper hsize).exists_final (fun _ h hfin => exists_step h hfin) hlive
    obtain ⟨tr₂, hend, -⟩ := Sections.exists_runs hatomic hrest
    exact ⟨tr₁ ++ tr₂, s, hleave.append hend, hfin⟩

theorem interleavings_iff_oneByte :
    ∃ tr s, (statements .oneByte 1).Runs Machine.always (.init (init .oneByte [7])) tr (.init s) ∧
      Sections.actions tr = [(.inr .run, none), (.inr .run, some (.requestRead 1, .entered)),
        (.inr .run, some (.passRead, .slept)), (.inl .run, none)] := by
  have hruns : (machine .oneByte 1).Runs Machine.always (init .oneByte [7])
      [(.inr .run, none), (.inr .run, some (.requestRead 1, .entered)),
        (.inr .run, some (.passRead, .slept)), (.inl .run, none)] _ :=
    .of_exec (fun _ _ _ => trivial) rfl
  obtain ⟨tr, hstatements, hactions⟩ := ((interleavings_iff Nat.one_pos [7]).1 _ _).mpr hruns
  exact ⟨tr, _, hstatements, hactions⟩

end Workers
