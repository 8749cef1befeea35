import Buffer2.Workers.Transfer

/-!
This module contains what happens to a transfer when `Wait` fails. The length 0 that the request then
returns means the end of the stream to the output worker and a stopped output to the input worker, so
both end without an error.
-/

namespace Workers

variable {c : Layout} {requestSize : Nat} {stream : List UInt8} {s s' : Workers c}
variable {tr : List ((Choice ⊕ Choice) × Option (Operation × Event))}

def NoError (s : Workers c) (x : Choice ⊕ Choice) : Prop :=
  (∀ e, choice x ≠ .throws e) ∧ (x = .inr .run → ∀ buf len, s.right.pos ≠ .writing buf len [])

def WaitFailureReported (c : Layout) (requestSize : Nat) : Prop :=
  ∀ stream tr (s : Workers c), (machine c requestSize).Runs NoError (init c stream) tr s →
    s.Finished → s.exitValue = 0 → s.right.accepted = stream

section Result

variable {x : Choice ⊕ Choice} {l : Option (Operation × Event)}

theorem input_resume_result {p : InputWorker} {e : Event} (h : ∀ err, e ≠ .threw err) :
    (p.resume e).result = p.result := by
  unfold InputWorker.resume
  split
  . next err => exact absurd rfl (h err)
  . split <;> rfl
  . rfl
  . rfl

theorem input_resumeCommit_result {p : InputWorker} {e : Event} (h : ∀ err, e ≠ .threw err) :
    (p.resumeCommit e).result = p.result := by
  unfold InputWorker.resumeCommit
  split
  . next err => exact absurd rfl (h err)
  . rfl

theorem output_resume_result {q : OutputWorker} {e : Event} (h : ∀ err, e ≠ .threw err) :
    (q.resume e).result = q.result := by
  unfold OutputWorker.resume
  split
  . next err => exact absurd rfl (h err)
  . split <;> rfl
  . rfl
  . rfl

theorem output_resumeCommit_result {q : OutputWorker} {e : Event} (h : ∀ err, e ≠ .threw err) :
    (q.resumeCommit e).result = q.result := by
  unfold OutputWorker.resumeCommit
  split
  . next err => exact absurd rfl (h err)
  . rfl

theorem result_step (hsize : 0 < requestSize) (h : Inv requestSize s.shared s.left s.right)
    (hx : s.NoError x) (hstep : (machine c requestSize).step s x = some (s', l)) :
    s'.left.result = s.left.result ∧ s'.right.result = s.right.result := by
  obtain ⟨hthrows, hrefused⟩ := hx
  cases x with
  | inl x =>
    obtain ⟨hprogram, hright⟩ := Machine.compose_inl hstep
    rw [hright]
    generalize s'.shared = w', s'.left = p' at hprogram
    refine ⟨?_, rfl⟩
    cases hprogram with
    | own hmove =>
      cases InputWorker.move_cases hmove with
      | initializeThrew e | readThrew _ _ _ e => exact absurd rfl (hthrows e)
      | _ => rfl
    | call hmove hcall =>
      have hnot := input_not_threw hsize h hmove hcall
      cases InputWorker.move_cases hmove with
      | requestWrite | passWrite | wakeWrite | failWrite => exact input_resume_result hnot
      | commitWrite => exact input_resumeCommit_result hnot
      | _ => rfl
  | inr x =>
    obtain ⟨hprogram, hleft⟩ := Machine.compose_inr hstep
    rw [hleft]
    generalize s'.shared = w', s'.right = q' at hprogram
    refine ⟨rfl, ?_⟩
    cases hprogram with
    | own hmove =>
      cases OutputWorker.move_cases hmove with
      | initializeThrew e | writeThrew _ _ _ e => exact absurd rfl (hthrows e)
      | writeRefused buf len hpos => exact absurd hpos (hrefused rfl buf len)
      | _ => rfl
    | call hmove hcall =>
      have hnot := output_not_threw hsize h hmove hcall
      cases OutputWorker.move_cases hmove with
      | requestRead | passRead | wakeRead | failRead => exact output_resume_result hnot
      | commitRead => exact output_resumeCommit_result hnot
      | _ => rfl

theorem exitValue_of_runs (hsize : 0 < requestSize)
    (hruns : (machine c requestSize).Runs NoError (init c stream) tr s) : s.exitValue = 0 := by
  have hresults : Inv requestSize s.shared s.left s.right ∧ s.left.result = 0 ∧ s.right.result = 0 := by
    apply hruns.invariant (I := fun s => Inv requestSize s.shared s.left s.right ∧
      s.left.result = 0 ∧ s.right.result = 0)
    . rintro s x s' l ⟨hinv, hleft, hright⟩ hx hstep
      obtain ⟨hleft', hright'⟩ := result_step hsize hinv hx hstep
      exact ⟨(follows hsize hinv (hx.1 _) hstep).1, hleft'.trans hleft, hright'.trans hright⟩
    . exact ⟨inv_init c requestSize stream, rfl, rfl⟩
  simp [exitValue, hresults.2]

end Result

theorem harmless_or_lost (hsize : 0 < requestSize)
    (hruns : (machine c requestSize).Runs NoError (init c stream) tr s) :
    (machine c requestSize).Runs (fun s x => s.NoError x ∧ s.NothingLeft x) (init c stream) tr s ∨
      s.pipeline.Inv stream ∧ s.pipeline.Lost := by
  have hboth : Inv requestSize s.shared s.left s.right ∧ s.pipeline.Inv stream ∧
      ((machine c requestSize).Runs (fun s x => s.NoError x ∧ s.NothingLeft x) (init c stream) tr s ∨
        s.pipeline.Lost) := by
    apply hruns.history (I := fun tr s => Inv requestSize s.shared s.left s.right ∧
      s.pipeline.Inv stream ∧
      ((machine c requestSize).Runs (fun s x => s.NoError x ∧ s.NothingLeft x) (init c stream) tr s ∨
        s.pipeline.Lost))
    . rintro tr s x s' l ⟨hinv, hflow, ih⟩ hx hstep
      obtain ⟨hinv', hfollows⟩ := follows hsize hinv (hx.1 _) hstep
      refine ⟨hinv', ?_⟩
      cases hfollows with
      | idle hnot heq =>
        rw [heq]
        exact ⟨hflow, ih.imp_left fun h => h.snoc ⟨hx, nothingLeft_of_not_waitFails hnot⟩ hstep⟩
      | moves op hnot hen _ heq =>
        rw [heq]
        refine ⟨hflow.next hen, ih.imp (fun h => ?_) fun h => h.next hen⟩
        exact h.snoc ⟨hx, nothingLeft_of_not_waitFails hnot⟩ hstep
      | fails hfails hen heq =>
        rw [heq]
        refine ⟨hflow.next hen, ?_⟩
        -- What a harmful failure loses stays lost, whatever happens after it.
        by_cases hharm : s.NothingLeft x
        . exact ih.imp (fun h => h.snoc ⟨hx, hharm⟩ hstep) fun h => h.next hen
        . rw [nothingLeft_iff hfails] at hharm
          exact .inr (Pipeline.lost_of_not_harmless hharm)
    . exact ⟨inv_init c requestSize stream, Pipeline.inv_init stream, .inl (.nil _)⟩
  obtain ⟨_, hinv, h⟩ := hboth
  exact h.imp_right fun hlost => ⟨hinv, hlost⟩

theorem exitValue_iff_nothingLeft (hsize : 0 < requestSize)
    (hruns : (machine c requestSize).Runs NoError (init c stream) tr s) (hfin : s.Finished) :
    (s.exitValue = 0 → s.right.accepted = stream) ↔
      (machine c requestSize).Runs (fun s x => s.NoError x ∧ s.NothingLeft x) (init c stream) tr s := by
  constructor
  . intro hexit
    refine (harmless_or_lost hsize hruns).resolve_right ?_
    rintro ⟨hinv, hlost⟩
    exact hinv.accepted_ne_input (finished_pipeline hfin) hlost (hexit (exitValue_of_runs hsize hruns))
  . intro hharm hexit
    exact accepted_eq_stream hsize (hharm.mono fun s x h => ⟨h.2, h.1.1 _⟩) hfin hexit

theorem failing_runs :
    ∃ tr s, (machine .oneByte 1).Runs NoError (init .oneByte [7]) tr s ∧ s.Finished ∧
      s.exitValue = 0 ∧ s.right.accepted = [] := by
  have hruns : (machine .oneByte 1).Runs NoError (init .oneByte [7])
      [(.inr .run, none), (.inr .run, some (.requestRead 1, .entered)),
        (.inr .run, some (.passRead, .slept)), (.inr .waitFails, some (.failRead, .ended)),
        (.inr .run, some (.endRead, .closed)), (.inl .run, none),
        (.inl .run, some (.requestWrite 1, .entered)), (.inl .run, some (.passWrite, .ended)),
        (.inl .run, some (.endWrite, .closed))] _ :=
    .cons (And.intro nofun nofun) rfl <|
    .cons (And.intro nofun nofun) rfl <|
    .cons (And.intro nofun nofun) rfl <|
    .cons (And.intro nofun nofun) rfl <|
    .cons (And.intro nofun nofun) rfl <|
    .cons (And.intro nofun nofun) rfl <|
    .cons (And.intro nofun nofun) rfl <|
    .cons (And.intro nofun nofun) rfl <|
    .cons (And.intro nofun nofun) rfl <|
    .nil _
  exact ⟨_, _, hruns, ⟨rfl, rfl⟩, rfl, rfl⟩

theorem not_waitFailureReported : ¬ WaitFailureReported .oneByte 1 := by
  intro h
  obtain ⟨tr, s, hruns, hfin, hexit, haccepted⟩ := failing_runs
  have heq := h [7] tr s hruns hfin hexit
  rw [haccepted] at heq
  cases heq

theorem exitValue_iff_nothingLeft_oneByte :
    ∃ tr s, (machine .oneByte 1).Runs NoError (init .oneByte [7]) tr s ∧ s.Finished ∧
      ¬ (machine .oneByte 1).Runs (fun s x => s.NoError x ∧ s.NothingLeft x) (init .oneByte [7]) tr s := by
  obtain ⟨tr, s, hruns, hfin, hexit, haccepted⟩ := failing_runs
  refine ⟨tr, s, hruns, hfin, ?_⟩
  intro hharm
  have heq := (exitValue_iff_nothingLeft Nat.one_pos hruns hfin).mpr hharm hexit
  rw [haccepted] at heq
  cases heq

end Workers
