import Buffer2.Machine.Basic

/-!
This module contains critical sections: the thread that has the lock runs its section statement by
statement, while the other threads go on with what they do without the lock. If the latter moves to the left
of every statement of the section, it makes no difference that a section is not a single step.
-/

/--
How the actions `α` of a machine are carried out by threads. An action with a `start` is a section, it needs
the lock. Each statement leads to the next point or leaves the section with a result.
-/
structure Sections (σ α ε κ ι : Type) where
  thread : α → ι
  start : σ → α → Option κ
  stmt : κ → σ → σ × (κ ⊕ ε)
  threadOf : κ → ι

namespace Sections

variable {σ α ε κ ι : Type}

inductive Action (α : Type)
  | free (a : α)
  | lock (a : α)
  | stmt
  deriving DecidableEq

structure State (σ α κ : Type) where
  shared : σ
  owner : Option (α × κ)

def State.init (s : σ) : State σ α κ where
  shared := s
  owner := none

/--
A thread that is inside of its section does nothing else.
-/
def busy [DecidableEq ι] (S : Sections σ α ε κ ι) (owner : Option (α × κ)) (a : α) : Bool :=
  match owner with
  | none => false
  | some (b, _) => S.thread b = S.thread a

def step [DecidableEq ι] (S : Sections σ α ε κ ι) (m : Machine σ α ε) (s : State σ α κ) (x : Action α) :
    Option (State σ α κ × Option (α × ε)) :=
  match x, s.owner with
  | .free a, owner =>
    if (S.start s.shared a).isSome || S.busy owner a then
      none
    else
      (m.step s.shared a).map fun (shared, e) => ({ s with shared }, some (a, e))
  | .lock a, none => (S.start s.shared a).map fun k => ({ s with owner := some (a, k) }, none)
  | .stmt, some (a, k) =>
    match S.stmt k s.shared with
    | (shared, .inl k) => some ({ shared, owner := some (a, k) }, none)
    | (shared, .inr e) => some ({ shared, owner := none }, some (a, e))
  | _, _ => none

def machine [DecidableEq ι] (S : Sections σ α ε κ ι) (m : Machine σ α ε) :
    Machine (State σ α κ) (Action α) (Option (α × ε)) where
  step := S.step m

def actions (tr : List (Action α × Option (α × ε))) : List (α × ε) := tr.filterMap Prod.snd

def exec (S : Sections σ α ε κ ι) (n : Nat) (k : κ) (s : σ) : Option (σ × ε) :=
  match n with
  | 0 => none
  | n + 1 =>
    match S.stmt k s with
    | (s', .inl k') => S.exec n k' s'
    | (s', .inr e) => some (s', e)

/--
The sections do what the actions of `m` do, and an action without the lock can be moved to the left of a
statement of another thread.
-/
structure Atomic (S : Sections σ α ε κ ι) (m : Machine σ α ε) : Prop where
  exec (s : σ) (a : α) (k : κ) : S.start s a = some k → ∃ n r, S.exec n k s = some r ∧ m.step s a = some r
  threadOf_start (s : σ) (a : α) (k : κ) : S.start s a = some k → S.threadOf k = S.thread a
  threadOf_stmt (k k' : κ) (s s' : σ) : S.stmt k s = (s', .inl k') → S.threadOf k' = S.threadOf k
  start_left (s s' : σ) (a b : α) (e : ε) (k : κ) : S.thread a ≠ S.thread b → S.start s b = none →
    m.step s b = some (s', e) → S.start s a = some k → S.start s' a = some k
  stmt_left (k k' : κ) (s t t' : σ) (b : α) (e : ε) : S.threadOf k ≠ S.thread b →
    S.stmt k s = (t, .inl k') → S.start t b = none → m.step t b = some (t', e) →
    ∃ s', S.start s b = none ∧ m.step s b = some (s', e) ∧ S.stmt k s' = (t', .inl k')

inductive Reaches (S : Sections σ α ε κ ι) (k : κ) (s : σ) : κ → σ → Prop
  | refl : Reaches S k s k s
  | stmt {k' k'' : κ} {s' s'' : σ} (h : Reaches S k s k' s') (hstmt : S.stmt k' s' = (s'', .inl k'')) :
    Reaches S k s k'' s''

section Exec

variable {S : Sections σ α ε κ ι} {m : Machine σ α ε} {k k' : κ} {s s' : σ} {r r' : σ × ε} {n n' : Nat}

theorem exec_unique (h : S.exec n k s = some r) (h' : S.exec n' k s = some r') : r = r' := by
  induction n generalizing k s n' with
  | zero => cases h
  | succ n ih =>
    cases n' with
    | zero => cases h'
    | succ n' =>
      simp only [exec] at h h'
      split at h
      next t k' hstmt =>
        rw [hstmt] at h'
        exact ih h h'
      next t e hstmt =>
        rw [hstmt] at h'
        rw [← Option.some.inj h, ← Option.some.inj h']

theorem Reaches.exec_prepend (h : S.Reaches k s k' s') (hexec : S.exec n k' s' = some r) :
    ∃ n', S.exec n' k s = some r := by
  induction h generalizing n with
  | refl => exact ⟨n, hexec⟩
  | stmt _ hstmt ih =>
    apply ih (n := n + 1)
    simpa only [exec, hstmt] using hexec

theorem Reaches.exec_rest (h : S.Reaches k s k' s') (hexec : S.exec n k s = some r) :
    ∃ n', S.exec n' k' s' = some r := by
  induction h with
  | refl => exact ⟨n, hexec⟩
  | stmt _ hstmt ih =>
    obtain ⟨n', hrest⟩ := ih
    cases n' with
    | zero => cases hrest
    | succ n' =>
      simp only [exec, hstmt] at hrest
      exact ⟨n', hrest⟩

theorem Reaches.threadOf_eq (hatomic : S.Atomic m) (h : S.Reaches k s k' s') :
    S.threadOf k' = S.threadOf k := by
  induction h with
  | refl => rfl
  | stmt _ hstmt ih => exact (hatomic.threadOf_stmt _ _ _ _ hstmt).trans ih

theorem Reaches.left (hatomic : S.Atomic m) {b : α} {e : ε} {t : σ} (h : S.Reaches k s k' s')
    (hthread : S.threadOf k ≠ S.thread b) (hfree : S.start s' b = none) (hstep : m.step s' b = some (t, e)) :
    ∃ s'', S.start s b = none ∧ m.step s b = some (s'', e) ∧ S.Reaches k s'' k' t := by
  induction h generalizing t with
  | refl => exact ⟨t, hfree, hstep, .refl⟩
  | stmt hreach hstmt ih =>
    have hsame := hreach.threadOf_eq hatomic
    obtain ⟨u, hbefore, hmiddle, hstmt'⟩ := hatomic.stmt_left _ _ _ _ _ b e (by rwa [hsame]) hstmt hfree hstep
    obtain ⟨s'', hfirst, hone, hreach'⟩ := ih hbefore hmiddle
    exact ⟨s'', hfirst, hone, hreach'.stmt hstmt'⟩

end Exec

/--
The state of `m` that a state stands for: a section has no effect before it is left.
-/
def Stands (S : Sections σ α ε κ ι) (f : State σ α κ) (s : σ) : Prop :=
  match f.owner with
  | none => f.shared = s
  | some (a, k) => ∃ k₀, S.start s a = some k₀ ∧ S.Reaches k₀ s k f.shared

section Runs

variable [DecidableEq ι] {S : Sections σ α ε κ ι} {m : Machine σ α ε} {f f' : State σ α κ} {s s' : σ}
variable {x : Action α} {l : Option (α × ε)} {tr : List (Action α × Option (α × ε))} {a : α} {e : ε} {k : κ}

theorem actions_cons (x : Action α) (l : Option (α × ε)) (tr : List (Action α × Option (α × ε))) :
    actions ((x, l) :: tr) = l.toList ++ actions tr := by
  cases l <;> rfl

theorem actions_append (tr tr' : List (Action α × Option (α × ε))) :
    actions (tr ++ tr') = actions tr ++ actions tr' := List.filterMap_append

theorem stands_free (hatomic : S.Atomic m) (h : S.Stands f s) (hfree : S.start f.shared a = none)
    (hbusy : S.busy f.owner a = false) {shared : σ} (hstep : m.step f.shared a = some (shared, e)) :
    ∃ s', m.step s a = some (s', e) ∧ S.Stands { f with shared } s' := by
  unfold Stands at h ⊢
  split at h
  next howner =>
    rw [h] at hstep
    exact ⟨shared, hstep, by simp [howner]⟩
  next b k howner =>
    obtain ⟨k₀, hstart, hreach⟩ := h
    have hthread : S.thread b ≠ S.thread a := by simpa [busy, howner] using hbusy
    have hpoint : S.threadOf k₀ ≠ S.thread a := by rwa [hatomic.threadOf_start _ _ _ hstart]
    obtain ⟨s', hfree', hstep', hreach'⟩ := hreach.left hatomic hpoint hfree hstep
    refine ⟨s', hstep', ?_⟩
    simp only [howner]
    exact ⟨k₀, hatomic.start_left s s' b a e k₀ hthread hfree' hstep' hstart, hreach'⟩

theorem stands_step (hatomic : S.Atomic m) (h : S.Stands f s)
    (hstep : (S.machine m).step f x = some (f', l)) :
    match l with
    | none => S.Stands f' s
    | some (a, e) => ∃ s', m.step s a = some (s', e) ∧ S.Stands f' s' := by
  simp only [machine, step] at hstep
  split at hstep
  next a =>
    split at hstep
    . cases hstep
    next hfree =>
      simp only [Bool.or_eq_true, not_or, Bool.not_eq_true, Option.isSome_eq_false_iff,
        Option.isNone_iff_eq_none] at hfree
      obtain ⟨⟨shared, e⟩, hone, heq⟩ := Option.map_eq_some_iff.mp hstep
      cases heq
      exact stands_free hatomic h hfree.1 hfree.2 hone
  next a howner hstep =>
    obtain ⟨k, hstart, heq⟩ := Option.map_eq_some_iff.mp hstep
    cases heq
    simp only [Stands, howner] at h
    subst h
    exact ⟨k, hstart, .refl⟩
  next a k howner hstep =>
    simp only [Stands, howner] at h
    obtain ⟨k₀, hstart, hreach⟩ := h
    split at hstep
    next shared k' hstmt =>
      cases hstep
      exact ⟨k₀, hstart, hreach.stmt hstmt⟩
    next shared e hstmt =>
      cases hstep
      obtain ⟨n, r, hexec, hone⟩ := hatomic.exec s a k₀ hstart
      obtain ⟨n', hexec'⟩ := hreach.exec_prepend (n := 1) (r := (shared, e)) (by simp [exec, hstmt])
      rw [exec_unique hexec hexec'] at hone
      exact ⟨shared, hone, rfl⟩
  . cases hstep

theorem stands_runs (hatomic : S.Atomic m) {G : State σ α κ → Action α → Prop}
    (hruns : (S.machine m).Runs G f tr f') (h : S.Stands f s) :
    ∃ s', m.Runs Machine.always s (actions tr) s' ∧ S.Stands f' s' := by
  induction hruns generalizing s with
  | nil => exact ⟨s, .nil s, h⟩
  | @cons _ _ _ x l tr _ hstep _ ih =>
    have hone := stands_step hatomic h hstep
    rw [actions_cons]
    cases l with
    | none => exact ih hone
    | some y =>
      obtain ⟨s₁, hstep₁, h₁⟩ := hone
      obtain ⟨s', hruns', h'⟩ := ih h₁
      exact ⟨s', .cons trivial hstep₁ hruns', h'⟩

theorem runs_of_exec {n : Nat} {r : σ × ε} (hexec : S.exec n k s = some r) :
    ∃ tr, (S.machine m).Runs Machine.always { shared := s, owner := some (a, k) } tr (.init r.1) ∧
      actions tr = [(a, r.2)] := by
  induction n generalizing k s with
  | zero => cases hexec
  | succ n ih =>
    simp only [exec] at hexec
    split at hexec
    next s₁ k₁ hstmt =>
      obtain ⟨tr, hruns, hactions⟩ := ih hexec
      refine ⟨(.stmt, none) :: tr, .cons trivial ?_ hruns, hactions⟩
      simp [machine, step, hstmt]
    next s₁ e hstmt =>
      cases hexec
      refine ⟨[(.stmt, some (a, e))], .single trivial ?_, rfl⟩
      simp [machine, step, hstmt, State.init]

theorem exists_left (hatomic : S.Atomic m) (h : S.Stands f s) :
    ∃ tr s', (S.machine m).Runs Machine.always f tr (.init s') ∧
      m.Runs Machine.always s (actions tr) s' := by
  obtain ⟨shared, owner⟩ := f
  cases owner with
  | none =>
    cases h
    exact ⟨[], shared, .nil _, .nil _⟩
  | some y =>
    obtain ⟨k₀, hstart, hreach⟩ := h
    obtain ⟨n, r, hexec, hone⟩ := hatomic.exec s y.1 k₀ hstart
    obtain ⟨n', hrest⟩ := hreach.exec_rest hexec
    obtain ⟨tr, hruns, hactions⟩ := runs_of_exec (m := m) (a := y.1) hrest
    refine ⟨tr, r.1, hruns, ?_⟩
    rw [hactions]
    exact .single trivial hone

theorem exists_leave (hatomic : S.Atomic m) {G : State σ α κ → Action α → Prop}
    (hruns : (S.machine m).Runs G (.init s) tr f) :
    ∃ tr' s', (S.machine m).Runs Machine.always f tr' (.init s') := by
  obtain ⟨t, -, hstands⟩ := stands_runs hatomic hruns (s := s) rfl
  obtain ⟨tr', s', hrest, -⟩ := exists_left hatomic hstands
  exact ⟨tr', s', hrest⟩

theorem exists_runs (hatomic : S.Atomic m) {acts : List (α × ε)} {G : σ → α → Prop}
    (hruns : m.Runs G s acts s') :
    ∃ tr, (S.machine m).Runs Machine.always (.init s) tr (.init s') ∧ actions tr = acts := by
  induction hruns with
  | nil => exact ⟨[], .nil _, rfl⟩
  | @cons s s₁ _ a e acts _ hstep _ ih =>
    obtain ⟨tr, hrest, hactions⟩ := ih
    cases hstart : S.start s a with
    | none =>
      refine ⟨(.free a, some (a, e)) :: tr, .cons trivial ?_ hrest, ?_⟩
      . simp [machine, step, hstart, busy, State.init, hstep]
      . rw [actions_cons, hactions]
        rfl
    | some k =>
      obtain ⟨n, r, hexec, hone⟩ := hatomic.exec s a k hstart
      obtain rfl : (s₁, e) = r := Option.some.inj (hstep.symm.trans hone)
      obtain ⟨tr₁, hruns₁, hactions₁⟩ := runs_of_exec (m := m) (a := a) hexec
      refine ⟨(.lock a, none) :: (tr₁ ++ tr), .cons trivial ?_ (hruns₁.append hrest), ?_⟩
      . simp [machine, step, State.init, hstart]
      . rw [actions_cons, actions_append, hactions₁, hactions]
        rfl

theorem runs_iff (hatomic : S.Atomic m) {acts : List (α × ε)} :
    (∃ tr, (S.machine m).Runs Machine.always (.init s) tr (.init s') ∧ actions tr = acts) ↔
      m.Runs Machine.always s acts s' := by
  constructor
  . rintro ⟨tr, hruns, rfl⟩
    obtain ⟨t, hruns', hstands⟩ := stands_runs hatomic hruns (s := s) rfl
    cases hstands
    exact hruns'
  . exact exists_runs hatomic

end Runs
end Sections
