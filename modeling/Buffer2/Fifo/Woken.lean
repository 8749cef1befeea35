import Buffer2.Fifo.Steps

/-!
This module contains the proofs about the level that a woken thread finds: the water mark is tested by
the thread that notifies, and still passed when the notified one has the lock again.
-/

namespace World

variable {c : Layout}

def NoSpurious (_ : World c) (a : Operation) : Prop := a ≠ .wakeWrite ∧ a ≠ .wakeRead

def PositiveCommit (_ : World c) (a : Operation) : Prop :=
  match a with
  | .commitWrite _ len => 0 < len
  | .commitRead _ len => 0 < len
  | _ => True

def WokenStaysAwake (c : Layout) (G : World c → Operation → Prop) : Prop :=
  ∀ tr w, (machine c).Runs G (init c) tr w →
    (∀ len w', w.source = .notified len → w.step .passRead ≠ some (w', .slept)) ∧
      (∀ len w', w.drain = .notified len → w.step .passWrite ≠ some (w', .slept))

structure Woken (lo hi : Nat) (w : World c) : Prop where
  source (len : Nat) : w.source = .notified len → w.fifo.eos = true ∨ lo ≤ w.fifo.level
  drain (len : Nat) : w.drain = .notified len → w.fifo.eos = true ∨ w.fifo.level ≤ hi

namespace Woken

variable {lo hi : Nat} {w w' : World c} {a : Operation} {e : Event}

theorem init (lo hi : Nat) : (World.init c).Woken lo hi := by
  constructor <;> simp [World.init]

theorem of_step (h : w.Woken lo hi) (hguard : w.NoSpurious a)
    (hwrite : ∀ data len, a = .commitWrite data len →
      c.highWaterMark ≤ w.fifo.level + len → lo ≤ w.fifo.level + len)
    (hread : ∀ data len, a = .commitRead data len →
      w.fifo.level - len ≤ c.lowWaterMark → w.fifo.level - len ≤ hi)
    (hstep : Step w a e w') : w'.Woken lo hi := by
  cases hstep with
  | requestWriteThrows | commitWriteUnrequested | commitWriteTooLarge => exact h
  | requestReadThrows | commitReadUnrequested | commitReadTooLarge => exact h
  | requestWrite | writeEnded | writeGranted | writeSlept | failWrite =>
    constructor
    . exact h.source
    . simp
  | requestRead | readGranted | readEnded | readSlept | failRead =>
    constructor
    . simp
    . exact h.drain
  | wakeWrite => exact absurd rfl hguard.1
  | wakeRead => exact absurd rfl hguard.2
  | store addr b hfree => exact ⟨h.source, h.drain⟩
  | commitWrite len hfree hlen =>
    constructor
    . intro n hs
      by_cases hhigh : c.highWaterMark ≤ w.fifo.level + len
      . exact .inr (hwrite _ _ rfl hhigh)
      . -- The reader was notified before, and a commit of the writer only raises the level.
        simp only [Call.notifyIf, hhigh, decide_false, Bool.false_eq_true, ↓reduceIte] at hs
        exact (h.source n hs).imp_right fun hle => Nat.le_trans hle (Nat.le_add_right _ _)
    . simp
  | endWrite =>
    constructor
    . simp
    . simp
  | commitRead len hfree hlen =>
    constructor
    . simp
    . intro n hd
      by_cases hlow : w.fifo.level - len ≤ c.lowWaterMark
      . exact .inr (hread _ _ rfl hlow)
      . -- The writer was notified before, and a commit of the reader only lowers the level.
        simp only [Call.notifyIf, hlow, decide_false, Bool.false_eq_true, ↓reduceIte] at hd
        exact (h.drain n hd).imp_right fun hle => Nat.le_trans (Nat.sub_le _ _) hle
  | endRead =>
    constructor
    . simp
    . simp

end Woken

section Runs

variable {w : World c} {tr : List (Operation × Event)}

theorem woken_of_runs (hruns : (machine c).Runs NoSpurious (init c) tr w) :
    w.Woken c.highWaterMark c.lowWaterMark := by
  apply (inv_init c).invariant hruns
  . intro v a v' e _ hv hguard hstep
    exact hv.of_step hguard (fun _ _ _ h => h) (fun _ _ _ h => h) hstep
  . apply Woken.init

theorem woken_of_positive_runs
    (hruns : (machine c).Runs (fun w a => w.NoSpurious a ∧ w.PositiveCommit a) (init c) tr w) :
    w.Woken 1 (c.bufferSize - 1) := by
  apply (inv_init c).invariant hruns
  . rintro v a v' e hinv hv ⟨hguard, hpos⟩ hstep
    have hlevel := hinv.fifo.level_le
    apply hv.of_step hguard _ _ hstep
    . rintro data len rfl _
      have : 0 < len := hpos
      omega
    . rintro data len rfl _
      have : 0 < len := hpos
      omega
  . apply Woken.init

theorem wokenStaysAwake_of_positive :
    WokenStaysAwake c (fun w a => w.NoSpurious a ∧ w.PositiveCommit a) := by
  intro tr w hruns
  have hinv := (inv_init c).runs hruns
  have hwoken := woken_of_positive_runs hruns
  have hpos := c.size_pos
  constructor
  . intro len w' hsource hstep
    cases step_cases hinv hstep with
    | readSlept _ _ hlevel heos =>
      have := (hwoken.source len hsource).resolve_left (by simp [heos])
      omega
  . intro len w' hdrain hstep
    cases step_cases hinv hstep with
    | writeSlept _ _ heos hlevel =>
      have := (hwoken.drain len hdrain).resolve_left (by simp [heos])
      omega

theorem woken_past_waterMark (hruns : (machine c).Runs NoSpurious (init c) tr w) :
    (∀ len w' data n, w.source = .notified len → w.step .passRead = some (w', .granted data n) →
        n ≠ 0 → w.fifo.eos = false →
        max c.highWaterMark 1 ≤ w.fifo.level ∧
          n = min (min len w.fifo.level) (c.bufferSize - w.fifo.rdOffset)) ∧
      (∀ len w' data n, w.drain = .notified len → w.step .passWrite = some (w', .granted data n) →
        n ≠ 0 →
        w.fifo.level ≤ min c.lowWaterMark (c.bufferSize - 1) ∧
          n = min (min len (c.bufferSize - w.fifo.level)) (c.bufferSize - w.fifo.wrOffset)) ∧
      (∀ len w', w.source = .notified len → w.step .passRead = some (w', .slept) →
        c.highWaterMark = 0) ∧
      (∀ len w', w.drain = .notified len → w.step .passWrite = some (w', .slept) →
        c.lowWaterMark = c.bufferSize) ∧
      WokenStaysAwake c (fun w a => w.NoSpurious a ∧ w.PositiveCommit a) := by
  have hinv := (inv_init c).runs hruns
  have hwoken := woken_of_runs hruns
  have hpos := c.size_pos
  refine ⟨?_, ?_, ?_, ?_, wokenStaysAwake_of_positive⟩
  . intro len w' data n hsource hstep hn heos
    have hhigh := (hwoken.source len hsource).resolve_left (by simp [heos])
    cases step_cases hinv hstep with
    | readGranted _ hready hlevel =>
      rw [hsource, Call.ready, Option.some.injEq] at hready
      subst hready
      exact ⟨by omega, rfl⟩
  . intro len w' data n hdrain hstep hn
    cases step_cases hinv hstep with
    | writeGranted _ hready heos hlevel =>
      have hlow := (hwoken.drain len hdrain).resolve_left (by simp [heos])
      rw [hdrain, Call.ready, Option.some.injEq] at hready
      subst hready
      exact ⟨by omega, rfl⟩
  . intro len w' hsource hstep
    cases step_cases hinv hstep with
    | readSlept _ _ hlevel heos =>
      have := (hwoken.source len hsource).resolve_left (by simp [heos])
      omega
  . intro len w' hdrain hstep
    have hlow := c.low_le
    cases step_cases hinv hstep with
    | writeSlept _ _ heos hlevel =>
      have := (hwoken.drain len hdrain).resolve_left (by simp [heos])
      omega

theorem woken_past_waterMark_oneByte :
    ∃ tr w w', (machine .oneByte).Runs NoSpurious (init .oneByte) tr w ∧
      w.source = .notified 1 ∧ w.step .passRead = some (w', .granted 4096 1) ∧
      max 0 1 ≤ w.fifo.level := by
  have hruns : (machine .oneByte).Runs NoSpurious (init .oneByte)
      [(.requestRead 1, .entered), (.passRead, .slept), (.requestWrite 1, .entered),
        (.passWrite, .granted 4096 1), (.commitWrite 4096 1, .wrote [0])] _ :=
    .of_exec (by simp [NoSpurious]) rfl
  have hwoken := (woken_past_waterMark hruns).1 1 _ 4096 1 rfl rfl (by decide) rfl
  exact ⟨_, _, _, hruns, rfl, rfl, hwoken.1⟩

end Runs

theorem not_wokenStaysAwake :
    ¬ WokenStaysAwake .oneByte (fun w a => w.NoSpurious a ∧ w.Legal a) := by
  intro h
  have hruns : (machine .oneByte).Runs (fun w a => w.NoSpurious a ∧ w.Legal a) (init .oneByte)
      [(.requestRead 1, .entered), (.passRead, .slept), (.requestWrite 1, .entered),
        (.passWrite, .granted 4096 1), (.commitWrite 4096 0, .wrote [])] _ :=
    .cons ⟨.intro (by decide) (by decide), .intro rfl (by decide)⟩ rfl <|
    .cons ⟨.intro (by decide) (by decide), trivial⟩ rfl <|
    .cons ⟨.intro (by decide) (by decide), .intro rfl (by decide)⟩ rfl <|
    .cons ⟨.intro (by decide) (by decide), trivial⟩ rfl <|
    .cons ⟨.intro (by decide) (by decide), .intro 1 (.intro rfl (by decide))⟩ rfl <|
    .nil _
  exact (h _ _ hruns).1 1 _ rfl rfl

end World
