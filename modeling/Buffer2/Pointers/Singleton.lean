import Buffer2.Pointers.Custody
import Buffer2.Pointers.SglOwnPtr

/-!
This module contains the proofs about the singleton of `sgl_own_ptr` over whole programs: when a variable
holds the null pointer, and that nothing owns the singleton.
-/

namespace SmartPointer

variable {ι κ α : Type}

def SglOperation.given (op : SglOperation ι κ α) : Option α :=
  match op with
  | .ownPtr op => op.given
  | .constructFrom _ _ v | .resetTo _ v | .assign _ v => v.given
  | _ => none

/--
No one passes the singleton as an object to own.
-/
def Spares (g : α) (_ : SglState ι κ α) (op : SglOperation ι κ α) : Prop := op.given ≠ some g

structure NeverNull [DecidableEq α] (g : α) (s : SglState ι κ α) : Prop where
  nonnull (x : κ) (p : SglOwnPtr α) : s.sgls x = some p → p.sgl = g → p.ptr ≠ none
  unowned (x : κ) (p : SglOwnPtr α) : s.sgls x = some p → p.sgl = g → p.ptr = some g → p.own = false
  raw (x : κ) (p : SglOwnPtr α) : s.sgls x = some p → p.sgl = g → (p.getRaw = none ↔ p.ptr = some g)

/--
The constructors that take the null pointer over as it is: from an empty `auto_ptr` and from an empty
reference.
-/
def TakesNull (g : α) (op : SglOperation ι κ α) : Prop :=
  ∃ x, op = .constructFrom x g (.autoPtr none) ∨
    ∃ own, op = .constructFrom x g (.sglRef { ptr := none, own := own })

structure Holds (g : α) (p : SglOwnPtr α) : Prop where
  unowned : p.owned ≠ some g
  nonnull : p.sgl = g → p.ptr ≠ none

structure Good (g : α) (s : SglState ι κ α) : Prop where
  base : ¬ s.base.custody.Owned g
  sgls (x : κ) (p : SglOwnPtr α) : s.sgls x = some p → Holds g p

namespace SglOwnPtr

variable {g sgl : α} {p q : SglOwnPtr α} {ptr : Option α} {own : Bool}

theorem owned_attach : (attach sgl ptr own).owned = if own then ptr else none := by
  unfold attach OwnPtr.owned
  cases own <;> cases ptr <;> rfl

theorem ptr_attach_ne_none : (attach sgl ptr own).ptr ≠ none := by
  cases ptr <;> simp [attach]

theorem holds_attach (h : (if own then ptr else none) ≠ some g) : Holds g (attach sgl ptr own) where
  unowned := by
    rw [owned_attach]
    exact h
  nonnull _ := ptr_attach_ne_none

theorem holds_unowned {a : α} : Holds g { ptr := some a, own := false, sgl := sgl } where
  unowned := by simp [OwnPtr.owned]
  nonnull _ := by simp

variable [DecidableEq α]

theorem getRaw_cases (p : SglOwnPtr α) : p.getRaw = none ∨ p.getRaw = p.ptr := by
  unfold getRaw
  split
  . exact .inl rfl
  . exact .inr rfl

theorem holds_attach_raw (h : Holds g q) : Holds g (attach sgl q.getRaw q.own) := by
  apply holds_attach
  intro howned
  apply h.unowned
  cases hown : q.own with
  | false =>
    rw [hown] at howned
    cases howned
  | true =>
    rw [hown] at howned
    cases q.getRaw_cases with
    | inl hraw =>
      rw [hraw] at howned
      cases howned
    | inr hraw =>
      rw [hraw] at howned
      exact OwnPtr.owned_eq_some_iff.mpr ⟨hown, howned⟩

theorem holds_ofSgl (h : Holds g q) : Holds g (ofSgl sgl q) := by
  unfold ofSgl
  split
  . next hsgl =>
    constructor
    . show (OwnPtr.attach q.ptr q.own).owned ≠ some g
      rw [OwnPtr.owned_attach]
      exact h.unowned
    . intro hg
      exact h.nonnull (hsgl.trans hg)
  . exact holds_attach_raw h

theorem holds_resetPointer {heap : Heap α} (h : Holds g p) (hgiven : (if own then ptr else none) ≠ some g) :
    Holds g (p.resetPointer heap ptr own).2 := by
  unfold resetPointer
  split
  . exact holds_attach hgiven
  . exact h

end SglOwnPtr

theorem good_initial (g : α) (live : α → Bool) : Good g (SglState.initial (ι := ι) (κ := κ) live) where
  base := by
    rintro ⟨x, hx⟩
    cases hx
  sgls x p hx := by cases hx

section Good

variable {g : α} {s : SglState ι κ α}

theorem Good.owned_ne {y : ι} {q : OwnPtr α} (h : Good g s) (hq : s.base.vars y = some q) :
    q.owned ≠ some g := by
  intro howned
  apply h.base
  refine ⟨y, ?_⟩
  rw [State.custody_owned hq]
  exact howned

theorem Good.writeOwnPtr [DecidableEq ι] {y : ι} {q : OwnPtr α} (h : Good g s) (hq : q.owned ≠ some g) :
    Good g (s.writeOwnPtr y q) where
  base := by
    intro howned
    simp only [SglState.writeOwnPtr, State.custody_write] at howned
    cases Custody.owned_of_put howned with
    | inl howned => exact h.base howned
    | inr howned => exact hq howned
  sgls := h.sgls

theorem Good.storeOwnPtr [DecidableEq ι] [DecidableEq α] {y : ι} {p : OwnPtr α} {q : SglOwnPtr α}
    (h : Good g s) (hp : s.base.vars y = some p) (hq : Holds g q) :
    Good g { s with base := s.base.store y (p.reset s.base.heap q.ptr q.own) } where
  base := by
    have hchange : s.base.custody.Change q.owned
        (s.base.store y (p.reset s.base.heap q.ptr q.own)).custody := by
      unfold OwnPtr.reset
      rw [State.custody_store hp, OwnPtr.owned_attach]
      exact .replace y _ (.inr rfl)
    intro howned
    cases hchange.owned howned with
    | inl howned => exact h.base howned
    | inr howned => exact hq.unowned howned
  sgls := h.sgls

theorem Good.neverNull [DecidableEq α] (h : Good g s) : NeverNull g s where
  nonnull x p hx hg := (h.sgls x p hx).nonnull hg
  unowned x p hx hg hptr := by
    have hunowned := (h.sgls x p hx).unowned
    cases hown : p.own with
    | false => rfl
    | true => exact absurd (OwnPtr.owned_eq_some_iff.mpr ⟨hown, hptr⟩) hunowned
  raw x p hx hg := by
    have hnonnull := (h.sgls x p hx).nonnull hg
    unfold SglOwnPtr.getRaw
    rw [hg]
    split
    . next hptr => simp [hptr]
    . next hptr => simp [hptr, hnonnull]

variable [DecidableEq κ] {s' : SglState ι κ α} {x : κ} {p : SglOwnPtr α}

theorem Good.write {o : Option (SglOwnPtr α)} (h : Good g s) (hp : ∀ p, o = some p → Holds g p) :
    Good g (s.write x o) where
  base := h.base
  sgls y q hq := by
    simp only [SglState.write, Function.update_apply] at hq
    split at hq
    . exact hp q hq
    . exact h.sgls y q hq

theorem Good.store {heap : Heap α} (h : Good g s) (hp : Holds g p) : Good g (s.store x (heap, p)) where
  base := h.base
  sgls y q hq := by
    simp only [SglState.store, Function.update_apply] at hq
    split at hq
    . cases hq
      exact hp
    . exact h.sgls y q hq

theorem sglInit_cases (h : s.init x p = some s') : s.sgls x = none ∧ s' = s.write x (some p) := by
  unfold SglState.init at h
  split at h
  . next hx =>
    cases h
    exact ⟨hx, rfl⟩
  . cases h

theorem Good.init (h : Good g s) (hinit : s.init x p = some s') (hp : Holds g p) : Good g s' := by
  obtain ⟨_, rfl⟩ := sglInit_cases hinit
  apply h.write
  rintro q hq
  cases hq
  exact hp

theorem Good.release [DecidableEq α] (h : Good g s) (p : SglOwnPtr α) :
    Good g (s.write x (some p.release.2)) := by
  apply h.write
  rintro q hq
  cases hq
  exact SglOwnPtr.holds_unowned

end Good

variable [DecidableEq ι] [DecidableEq κ] [DecidableEq α]

section Steps

variable {g sgl : α} {s s' : SglState ι κ α} {x : κ} {v : SglOperand ι κ α} {op : SglOperation ι κ α}

theorem Good.constructFrom (h : Good g s) (hgiven : v.given ≠ some g)
    (hnull : ¬ TakesNull g (.constructFrom x sgl v : SglOperation ι κ α))
    (hstep : s.constructFrom x sgl v = some s') : Good g s' := by
  cases v with
  | pointer p => exact h.init hstep (SglOwnPtr.holds_attach hgiven)
  | pointerOwn p own => exact h.init hstep (SglOwnPtr.holds_attach hgiven)
  | object o => exact h.init hstep SglOwnPtr.holds_unowned
  | ref r => exact h.init hstep (SglOwnPtr.holds_attach hgiven)
  | autoPtr r =>
    apply h.init hstep
    constructor
    . show (OwnPtr.attach r true).owned ≠ some g
      rw [OwnPtr.owned_attach]
      exact hgiven
    . rintro rfl rfl
      exact hnull ⟨x, .inl rfl⟩
  | sglRef r =>
    apply h.init hstep
    constructor
    . show (OwnPtr.attach r.ptr r.own).owned ≠ some g
      rw [OwnPtr.owned_attach]
      exact hgiven
    . rintro rfl hptr
      apply hnull
      refine ⟨x, .inr ⟨r.own, ?_⟩⟩
      rw [← show r.ptr = none from hptr]
      rfl
  | sglRefCast r succeeds =>
    apply h.init hstep
    apply SglOwnPtr.holds_attach
    cases succeeds with
    | true => exact hgiven
    | false => simp
  | ownPtr r =>
    simp only [SglState.constructFrom, Option.bind_eq_bind, Option.bind_eq_some_iff] at hstep
    obtain ⟨q, hq, t, hinit, hstep⟩ := hstep
    cases hstep
    apply Good.writeOwnPtr
    . exact h.init hinit (SglOwnPtr.holds_attach (h.owned_ne hq))
    . simp [OwnPtr.release, OwnPtr.owned]
  | sgl r =>
    simp only [SglState.constructFrom, Option.bind_eq_bind, Option.bind_eq_some_iff] at hstep
    obtain ⟨q, hq, t, hinit, hstep⟩ := hstep
    cases hstep
    apply (h.init hinit (SglOwnPtr.holds_ofSgl (h.sgls r q hq))).write
    rintro p hp
    cases hp
    exact SglOwnPtr.holds_unowned

theorem Good.resetTo (h : Good g s) (hgiven : v.given ≠ some g) (hstep : s.resetTo x v = some s') :
    Good g s' := by
  simp only [SglState.resetTo, Option.bind_eq_bind, Option.bind_eq_some_iff] at hstep
  obtain ⟨p, hx, hstep⟩ := hstep
  have hp := h.sgls x p hx
  cases v with
  | sglRefCast r succeeds => cases hstep
  | object o =>
    cases hstep
    exact h.store SglOwnPtr.holds_unowned
  | pointer ptr =>
    cases hstep
    exact h.store (SglOwnPtr.holds_resetPointer hp hgiven)
  | pointerOwn ptr own =>
    cases hstep
    exact h.store (SglOwnPtr.holds_resetPointer hp hgiven)
  | autoPtr r =>
    cases hstep
    exact h.store (SglOwnPtr.holds_resetPointer hp hgiven)
  | ref r =>
    cases hstep
    exact h.store (SglOwnPtr.holds_resetPointer hp hgiven)
  | sglRef r =>
    cases hstep
    exact h.store (SglOwnPtr.holds_resetPointer hp hgiven)
  | ownPtr r =>
    simp only [Option.bind_eq_some_iff] at hstep
    obtain ⟨q, hq, hstep⟩ := hstep
    split at hstep
    . cases hstep
      apply Good.writeOwnPtr
      . exact h.store (SglOwnPtr.holds_attach (h.owned_ne hq))
      . simp [OwnPtr.release, OwnPtr.owned]
    . cases hstep
      exact h
  | sgl r =>
    simp only [Option.bind_eq_some_iff] at hstep
    obtain ⟨q, hq, hstep⟩ := hstep
    split at hstep
    . cases hstep
      apply (h.store (SglOwnPtr.holds_attach_raw (h.sgls r q hq))).write
      rintro p hp
      cases hp
      exact SglOwnPtr.holds_unowned
    . cases hstep
      exact h

theorem sglAssign_cases (h : s.assign x v = some s') : s.resetTo x v = some s' := by
  cases v with
  | pointerOwn ptr own => cases h
  | _ => exact h

theorem Good.step (h : Good g s) (hop : Spares g s op) (hnull : ¬ TakesNull g op)
    (hstep : s.step op = some s') : Good g s' := by
  cases op with
  | constructFrom x sgl v => exact h.constructFrom hop hnull hstep
  | resetTo x v => exact h.resetTo hop hstep
  | construct x sgl => exact h.init hstep SglOwnPtr.holds_unowned
  | assign x v => exact h.resetTo hop (sglAssign_cases hstep)
  | ownPtr op =>
    simp only [SglState.step, Option.bind_eq_bind, Option.bind_eq_some_iff] at hstep
    obtain ⟨base, hbase, hstep⟩ := hstep
    cases hstep
    refine ⟨?_, h.sgls⟩
    intro howned
    cases (step_cases hbase).owned howned with
    | inl howned => exact h.base howned
    | inr hgiven => exact hop hgiven
  | ownPtrFrom x r =>
    simp only [SglState.step, SglState.ownPtrFrom, Option.bind_eq_bind, Option.bind_eq_some_iff] at hstep
    obtain ⟨q, hq, base, hinit, hstep⟩ := hstep
    cases hstep
    obtain ⟨_, rfl⟩ := init_cases hinit
    have hcopy : Holds g (SglOwnPtr.ofSgl q.sgl q) := SglOwnPtr.holds_ofSgl (h.sgls r q hq)
    exact (h.writeOwnPtr hcopy.unowned).release q
  | ownPtrResetTo x r =>
    simp only [SglState.step, SglState.ownPtrResetTo, Option.bind_eq_bind, Option.bind_eq_some_iff] at hstep
    obtain ⟨p, hp, q, hq, hstep⟩ := hstep
    cases hstep
    exact (h.storeOwnPtr hp (h.sgls r q hq)).release q
  | destruct x =>
    simp only [SglState.step, Option.bind_eq_bind, Option.bind_eq_some_iff] at hstep
    obtain ⟨p, hx, hstep⟩ := hstep
    cases hstep
    apply Good.write
    . exact ⟨h.base, h.sgls⟩
    . rintro q hq
      cases hq
  | release x =>
    simp only [SglState.step, Option.bind_eq_bind, Option.bind_eq_some_iff] at hstep
    obtain ⟨p, hx, hstep⟩ := hstep
    cases hstep
    exact h.release p
  | toSglRef x =>
    simp only [SglState.step, Option.bind_eq_bind, Option.bind_eq_some_iff] at hstep
    obtain ⟨p, hx, hstep⟩ := hstep
    cases hstep
    exact h.release p
  | toOtherSglRef x sgl =>
    simp only [SglState.step, Option.bind_eq_bind, Option.bind_eq_some_iff] at hstep
    obtain ⟨p, hx, hstep⟩ := hstep
    cases hstep
    exact h.release p
  | asOwnPtr x y =>
    simp only [SglState.step, Option.bind_eq_bind, Option.bind_eq_some_iff] at hstep
    obtain ⟨p, hx, base, hinit, hstep⟩ := hstep
    cases hstep
    obtain ⟨_, rfl⟩ := init_cases hinit
    have howned : p.asOwnPtr.1.owned ≠ some g := by
      show (OwnPtr.attach p.ptr p.own).owned ≠ some g
      rw [OwnPtr.owned_attach]
      exact (h.sgls x p hx).unowned
    exact (h.writeOwnPtr howned).release p
  | reset x =>
    simp only [SglState.step, Option.bind_eq_bind, Option.bind_eq_some_iff] at hstep
    obtain ⟨p, _, hstep⟩ := hstep
    cases hstep
    exact h.store SglOwnPtr.holds_unowned

theorem not_neverNull_of_takesNull (hnull : TakesNull g op) (hstep : s.step op = some s') :
    ¬ NeverNull g s' := by
  intro h
  obtain ⟨x, rfl | ⟨own, rfl⟩⟩ := hnull
  . obtain ⟨_, rfl⟩ := sglInit_cases hstep
    have hx : (s.write x (some (.ofAutoPtr g none))).sgls x = some (.ofAutoPtr g none) := by
      simp [SglState.write]
    exact h.nonnull x _ hx rfl rfl
  . obtain ⟨_, rfl⟩ := sglInit_cases hstep
    have hx : (s.write x (some (.ofSglRef g { ptr := none, own := own }))).sgls x =
        some (.ofSglRef g { ptr := none, own := own }) := by
      simp [SglState.write]
    exact h.nonnull x _ hx rfl rfl

end Steps

def SingletonReplacesNull (ι κ α : Type) [DecidableEq ι] [DecidableEq κ] [DecidableEq α] : Prop :=
  ∀ (g : α) (live : α → Bool) (tr : List (SglOperation ι κ α × SglState ι κ α)) (s : SglState ι κ α),
    (sglMachine ι κ α).Runs (Spares g) (.initial live) tr s → ∀ x ∈ tr, NeverNull g x.2

theorem neverNull_iff (g : α) (live : α → Bool) (tr : List (SglOperation ι κ α × SglState ι κ α))
    (s : SglState ι κ α) (h : (sglMachine ι κ α).Runs (Spares g) (.initial live) tr s) :
    (∀ x ∈ tr, NeverNull g x.2) ↔ ∀ x ∈ tr, ¬ TakesNull g x.1 := by
  constructor
  . intro hall x hx hnull
    have hnot : ∀ x ∈ tr, TakesNull g x.1 → ¬ NeverNull g x.2 := by
      refine Machine.Runs.forall_mem (I := fun _ => True) ?_ h trivial
      intro s op s' e _ _ hstep
      simp only [sglMachine, Option.map_eq_some_iff] at hstep
      obtain ⟨t, hstep, heq⟩ := hstep
      cases heq
      exact ⟨trivial, fun hnull => not_neverNull_of_takesNull hnull hstep⟩
    exact hnot x hx hnull (hall x hx)
  . intro hall
    have hruns := h.and_of_forall (P := fun op => ¬ TakesNull g op) hall
    refine Machine.Runs.forall_mem (I := Good g) ?_ hruns (good_initial g live)
    intro s op s' e hgood hop hstep
    simp only [sglMachine, Option.map_eq_some_iff] at hstep
    obtain ⟨t, hstep, heq⟩ := hstep
    cases heq
    have hgood' := hgood.step hop.1 hop.2 hstep
    exact ⟨hgood', hgood'.neverNull⟩

def emptyAutoPtr : List (SglOperation Nat Nat Nat × SglState Nat Nat Nat) :=
  [(.constructFrom 0 0 (.autoPtr none),
    (SglState.initial fun _ => true).write 0 (some (.ofAutoPtr 0 none)))]

theorem runs_emptyAutoPtr :
    ∃ s, (sglMachine Nat Nat Nat).Runs (Spares 0) (.initial fun _ => true) emptyAutoPtr s := by
  refine ⟨_, .cons ?_ rfl (.nil _)⟩
  intro hgiven
  cases hgiven

theorem not_singletonReplacesNull : ¬ SingletonReplacesNull Nat Nat Nat := by
  intro h
  obtain ⟨s, hruns⟩ := runs_emptyAutoPtr
  have hnever := h _ _ _ _ hruns _ (List.mem_singleton_self _)
  exact hnever.nonnull 0 _ rfl rfl rfl

theorem neverNull_iff_emptyAutoPtr : ¬ ∀ x ∈ emptyAutoPtr, NeverNull 0 x.2 := by
  obtain ⟨s, hruns⟩ := runs_emptyAutoPtr
  rw [neverNull_iff _ _ _ _ hruns]
  intro hall
  exact hall _ (List.mem_singleton_self _) ⟨0, .inl rfl⟩

end SmartPointer
