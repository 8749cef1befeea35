import Buffer2.Machine.Loop
import Buffer2.Simple.Ledger

/-!
This module contains the proof that `SimpleSource::read` undoes `SimpleDrain::write`, and that the loops
of both get on with every iteration.
-/

namespace SimpleDrain

variable {c : Layout} {w w' : World c} {p p' : SimpleDrain} {l : Option (Operation × Event)}

def loop : Loop SimpleDrain where
  head p := p.pos = .loop
  body p := p.inBody = true
  size p := p.rest.length
  returned p := p.log.length
  disjoint p hpos := by simp [inBody, hpos]

theorem Step.loop (h : Step w p w' p' l) : SimpleDrain.loop.Step p p' := by
  cases h with
  | call src script hpos =>
    exact .outside (by simp [SimpleDrain.loop, hpos]) (by simp [SimpleDrain.loop, inBody, hpos]) rfl
  | body pos hpos hpos' => exact .body hpos hpos' rfl rfl
  | ret hpos => exact .ret hpos (by simp [SimpleDrain.loop, SimpleDrain.ret])
  | commit blen hpos hblen hle =>
    apply Loop.Step.again
    . exact hpos
    . rfl
    . show (p.rest.drop blen).length < p.rest.length
      rw [List.length_drop]
      omega
    . rfl
  | close hpos =>
    exact .outside (by simp [SimpleDrain.loop, hpos]) (by simp [SimpleDrain.loop, inBody, hpos]) rfl

end SimpleDrain

namespace SimpleSource

variable {c : Layout} {w w' : World c} {p p' : SimpleSource} {l : Option (Operation × Event)}

def loop : Loop SimpleSource where
  head p := p.pos = .loop
  body p := p.inBody = true
  size p := p.len
  returned p := p.log.length
  disjoint p hpos := by simp [inBody, hpos]

theorem Step.loop (h : Step w p w' p' l) : SimpleSource.loop.Step p p' := by
  cases h with
  | call len script hpos =>
    exact .outside (by simp [SimpleSource.loop, hpos]) (by simp [SimpleSource.loop, inBody, hpos]) rfl
  | body pos hpos hpos' => exact .body hpos hpos' rfl rfl
  | copied src blen hpos => exact .body (.inr hpos) rfl rfl rfl
  | ret hpos => exact .ret hpos (by simp [SimpleSource.loop, SimpleSource.ret])
  | commit blen hpos hblen hle =>
    apply Loop.Step.again
    . exact hpos
    . rfl
    . show p.len - blen < p.len
      omega
    . rfl
  | close hpos =>
    exact .outside (by simp [SimpleSource.loop, hpos]) (by simp [SimpleSource.loop, inBody, hpos]) rfl

end SimpleSource

namespace Simple

variable {c : Layout} {s s' : Simple c} {writes : List (List UInt8)} {reads : List Nat}
variable {tr : List ((CopyChoice ⊕ CopyChoice) × Option (Operation × Event))}

theorem write_since (hinv : s.Inv) (hpos : s.left.pos = .loop)
    (hruns : (machine c).Runs NoWaitFails s tr s') :
    SimpleDrain.loop.Since s.left (∃ x ∈ tr, x.1.isLeft = true) s'.left := by
  have hboth : s'.Inv ∧ SimpleDrain.loop.Since s.left (∃ x ∈ tr, x.1.isLeft = true) s'.left := by
    apply hruns.history (I := fun tr v => v.Inv ∧
      SimpleDrain.loop.Since s.left (∃ x ∈ tr, x.1.isLeft = true) v.left)
    . rintro tr v x v' l ⟨hv, hsince⟩ hx hstep
      obtain ⟨hv', hcases⟩ := hv.step hx hstep
      constructor
      . exact hv'
      . cases hcases with
        | write hone => exact hsince.step hpos hone.loop
        | read _ hleft =>
          rw [hleft]
          simpa [or_and_right, exists_or] using hsince
    . exact ⟨hinv, .start (by simp) rfl⟩
  exact hboth.2

theorem read_since (hinv : s.Inv) (hpos : s.right.pos = .loop)
    (hruns : (machine c).Runs NoWaitFails s tr s') :
    SimpleSource.loop.Since s.right (∃ x ∈ tr, x.1.isRight = true) s'.right := by
  have hboth : s'.Inv ∧ SimpleSource.loop.Since s.right (∃ x ∈ tr, x.1.isRight = true) s'.right := by
    apply hruns.history (I := fun tr v => v.Inv ∧
      SimpleSource.loop.Since s.right (∃ x ∈ tr, x.1.isRight = true) v.right)
    . rintro tr v x v' l ⟨hv, hsince⟩ hx hstep
      obtain ⟨hv', hcases⟩ := hv.step hx hstep
      constructor
      . exact hv'
      . cases hcases with
        | read hone => exact hsince.step hpos hone.loop
        | write _ hright =>
          rw [hright]
          simpa [or_and_right, exists_or] using hsince
    . exact ⟨hinv, .start (by simp) rfl⟩
  exact hboth.2

theorem received_eq_flatten {ops : List (Operation × Event)} (hinv : s.Inv) (h : Ledger writes ops s)
    {x : ReadCall} (hx : x ∈ s.right.log) (hlt : x.result < x.len) : received s.right = writes.flatten := by
  obtain ⟨hclosed, hempty, hall⟩ := h.shortRead x hx hlt
  have hholds := hinv.left
  simp only [SimpleDrain.Holds, hclosed] at hholds
  obtain ⟨hscript, hcopied, _⟩ := hholds
  have houtFlight : s.right.outFlight s.shared.content = [] := by
    have hprefix := hinv.right.outFlight_prefix
    rw [hempty] at hprefix ⊢
    exact List.prefix_nil.mp hprefix
  have hfull : ∀ y ∈ s.left.log, y.src.take (y.src.length - y.result) = y.src := by
    intro y hy
    rw [hall y hy, Nat.sub_zero, List.take_length]
  calc received s.right
    _ = World.taken ops := by rw [← h.taken, houtFlight, List.append_nil]
    _ = World.written ops := by rw [h.content, hempty, List.append_nil]
    _ = s.left.log.flatMap fun y => y.src := by
      rw [h.written, committed, hcopied, List.append_nil]
      exact List.flatMap_congr hfull
    _ = writes.flatten := by
      rw [← h.writes]
      simp [current, hclosed, hscript, List.flatMap_def]

theorem read_undoes_write (hruns : (machine c).Runs NoWaitFails (init c writes reads) tr s) :
    (s.left.log.map (·.src) ++ current s.left ++ s.left.script = writes ∧
        World.written (Machine.calls tr) = committed s.left ∧
        ∀ x ∈ s.left.log, x.result ≤ x.src.length ∧ (0 < x.result → s.shared.fifo.eos = true)) ∧
      (received s.right <+: World.written (Machine.calls tr) ∧
        ∀ x ∈ s.right.log, x.result = x.dst.length ∧ x.result ≤ x.len ∧
          (x.result < x.len →
            .endWrite ∈ (Machine.calls tr).map Prod.fst ∧ s.shared.fifo.level = 0 ∧
              received s.right = writes.flatten)) ∧
      (∀ tr' s', s.left.pos = .loop → (machine c).Runs NoWaitFails s tr' s' → s'.left.pos = .loop →
        s'.left.log = s.left.log → (∃ x ∈ tr', x.1.isLeft = true) →
          s'.left.rest.length < s.left.rest.length) ∧
      (∀ tr' s', s.right.pos = .loop → (machine c).Runs NoWaitFails s tr' s' → s'.right.pos = .loop →
        s'.right.log = s.right.log → (∃ x ∈ tr', x.1.isRight = true) → s'.right.len < s.right.len) := by
  obtain ⟨hinv, h⟩ := ledger_of_runs hruns
  refine ⟨⟨h.writes, h.written, ?_⟩, ⟨?_, ?_⟩, ?_, ?_⟩
  . intro x hx
    obtain ⟨hle, hclosed⟩ := h.partialWrite x hx
    exact ⟨hle, fun hpos => h.eos.mpr (.inr (hclosed hpos))⟩
  . rw [h.content, ← h.taken]
    exact (List.prefix_append_right_inj _).mpr hinv.right.outFlight_prefix
  . intro x hx
    obtain ⟨hresult, hle⟩ := h.read x hx
    refine ⟨hresult, hle, ?_⟩
    intro hlt
    obtain ⟨hclosed, hempty, _⟩ := h.shortRead x hx hlt
    refine ⟨h.endWrite hclosed, ?_, received_eq_flatten hinv h hx hlt⟩
    rw [← World.length_content, hempty, List.length_nil]
  . intro tr' s' hpos hruns' hpos' hlog hmoved
    exact (write_since hinv hpos hruns').size_lt hmoved hpos' (congrArg List.length hlog)
  . intro tr' s' hpos hruns' hpos' hlog hmoved
    exact (read_since hinv hpos hruns').size_lt hmoved hpos' (congrArg List.length hlog)

/--
Seven bytes through a buffer of four: both threads fall asleep, both get around the buffer, and the second
call of `read` is for more bytes than there are left.
-/
theorem read_undoes_write_fourBytes :
    ∃ tr s,
      (machine .fourBytes).Runs NoWaitFails (init .fourBytes [[1, 2, 3, 4, 5, 6], [], [7]] [3, 5]) tr s ∧
      s.shared.fifo.emptyCount = 2 ∧ s.shared.fifo.fullCount = 1 ∧
      s.right.log = [{ len := 3, dst := [1, 2, 3], result := 3 },
        { len := 5, dst := [4, 5, 6, 7], result := 4 }] ∧
      World.written (Machine.calls tr) = committed s.left ∧ received s.right = [1, 2, 3, 4, 5, 6, 7] := by
  obtain ⟨tr, s, hruns, hempty, hfull, hlog⟩ : ∃ tr s,
      (machine .fourBytes).Runs NoWaitFails (init .fourBytes [[1, 2, 3, 4, 5, 6], [], [7]] [3, 5]) tr s ∧
        s.shared.fifo.emptyCount = 2 ∧ s.shared.fifo.fullCount = 1 ∧
        s.right.log = [{ len := 3, dst := [1, 2, 3], result := 3 },
          { len := 5, dst := [4, 5, 6, 7], result := 4 }] := by
    apply Machine.Runs.exists_of_acts
      (List.replicate 3 (.inr .run) ++ List.replicate 11 (.inl .run) ++ List.replicate 15 (.inr .run) ++
        List.replicate 16 (.inl .run) ++ List.replicate 8 (.inr .run))
    . simp [NoWaitFails]
    . decide +kernel
  obtain ⟨⟨_, hwritten, _⟩, ⟨_, hread⟩, _⟩ := read_undoes_write hruns
  have hshort := (hread { len := 5, dst := [4, 5, 6, 7], result := 4 } (by simp [hlog])).2.2 (by decide)
  exact ⟨tr, s, hruns, hempty, hfull, hlog, hwritten, hshort.2.2⟩

end Simple
