import Buffer2.Io.Steps

/-!
This module contains the proofs about the descriptors: nothing is done to one that is closed or that the
other worker uses, and all of them are closed in the end, whatever the system answers.
-/

namespace Io

namespace Objects

variable {enableCache : Bool} {table rest : Finset Nat} {src dst : Interface} {s s' : Objects}
variable {x : Choice ⊕ Choice} {l : Option ((Syscall × Answer) × Answer)}
variable {tr : List ((Choice ⊕ Choice) × Option ((Syscall × Answer) × Answer))}

structure Inv (rest : Finset Nat) (src dst : Interface) (s : Objects) : Prop where
  shares : Shares s.shared rest (s.left.held input) (s.right.held output)
  left_ok : s.left.Ok input
  right_ok : s.right.Ok output
  left_interface : s.left.interface = src
  right_interface : s.right.interface = dst

theorem inv_step (h : Inv rest src dst s) (hstep : (machine enableCache).step s x = some (s', l)) :
    Inv rest src dst s' ∧
      match x with
      | .inl _ => Object.Steps input s.shared s.left s'.shared s'.left l ∧ s'.right = s.right
      | .inr _ => Object.Steps output s.shared s.right s'.shared s'.right l ∧ s'.left = s.left := by
  cases x with
  | inl x =>
    obtain ⟨hprogram, hright⟩ := Machine.compose_inl hstep
    have hsteps :=
      Object.steps_of_programStep Object.proper_input h.left_ok (fun fd => h.shares.left_mem) hprogram
    refine ⟨⟨?_, hsteps.ok, ?_, hsteps.interface.trans h.left_interface, ?_⟩, hsteps, hright⟩
    . rw [hright]
      exact h.shares.change hsteps.change
    . rw [hright]
      exact h.right_ok
    . rw [hright]
      exact h.right_interface
  | inr x =>
    obtain ⟨hprogram, hleft⟩ := Machine.compose_inr hstep
    have hsteps := Object.steps_of_programStep Object.proper_output h.right_ok
      (fun fd => h.shares.symm.left_mem) hprogram
    refine ⟨⟨?_, ?_, hsteps.ok, ?_, hsteps.interface.trans h.right_interface⟩, hsteps, hleft⟩
    . rw [hleft]
      exact (h.shares.symm.change hsteps.change).symm
    . rw [hleft]
      exact h.left_ok
    . rw [hleft]
      exact h.left_interface

theorem inv_init (hsrc : src.reserved input ⊆ table) (hdst : dst.reserved output ⊆ table) :
    Inv ((table \ src.reserved input) \ dst.reserved output) src dst (init table src dst) where
  shares :=
    { mem_iff := by
        intro fd
        have hsrc := @hsrc fd
        have hdst := @hdst fd
        simp only [init, Object.held_create, Finset.mem_sdiff]
        tauto
      rest_left := by simp +contextual [init, Object.held_create]
      rest_right := by simp [init, Object.held_create]
      left_right := by
        intro fd hleft hright
        rw [init, Object.held_create] at hleft hright
        have hinput := Object.eq_of_mem_reserved hleft
        have houtput := Object.eq_of_mem_reserved hright
        rw [hinput] at houtput
        cases houtput }
  left_ok := Object.ok_create src
  right_ok := Object.ok_create dst
  left_interface := rfl
  right_interface := rfl

/--
What the threads on one side have of the descriptors `fds` that they begin with after the steps `tr`.
-/
def owned (side : Choice ⊕ Choice → Bool) (fds : Finset Nat)
    (tr : List ((Choice ⊕ Choice) × Option ((Syscall × Answer) × Answer))) : Finset Nat :=
  ((tr.filter fun y => side y.1).map Prod.snd).foldl Object.owns fds

def threw (side : Choice ⊕ Choice → Bool)
    (tr : List ((Choice ⊕ Choice) × Option ((Syscall × Answer) × Answer))) : Bool :=
  tr.any fun y => side y.1 && Object.failed y.2

theorem owned_snoc {side : Choice ⊕ Choice → Bool} {fds : Finset Nat} :
    owned side fds (tr ++ [(x, l)]) =
      if side x then Object.owns (owned side fds tr) l else owned side fds tr := by
  by_cases h : side x = true <;> simp [owned, h]

theorem threw_snoc {side : Choice ⊕ Choice → Bool} :
    threw side (tr ++ [(x, l)]) = (threw side tr || (side x && Object.failed l)) := by
  simp [threw]

structure History (rest : Finset Nat) (src dst : Interface)
    (tr : List ((Choice ⊕ Choice) × Option ((Syscall × Answer) × Answer))) (s : Objects) : Prop where
  inv : Inv rest src dst s
  left : s.left.held input = owned Sum.isLeft (src.reserved input) tr
  right : s.right.held output = owned Sum.isRight (dst.reserved output) tr
  left_threw : s.left.threw = threw Sum.isLeft tr
  right_threw : s.right.threw = threw Sum.isRight tr

theorem history_step (h : History rest src dst tr s) (hstep : (machine enableCache).step s x = some (s', l)) :
    History rest src dst (tr ++ [(x, l)]) s' := by
  obtain ⟨hinv, hside⟩ := inv_step h.inv hstep
  cases x with
  | inl x =>
    obtain ⟨hsteps, hright⟩ := hside
    refine ⟨hinv, ?_, ?_, ?_, ?_⟩
    . rw [owned_snoc, hsteps.owns, h.left]
      rfl
    . rw [owned_snoc, hright, h.right]
      rfl
    . rw [threw_snoc, hsteps.threw, h.left_threw]
      rfl
    . rw [threw_snoc, hright, h.right_threw]
      simp
  | inr x =>
    obtain ⟨hsteps, hleft⟩ := hside
    refine ⟨hinv, ?_, ?_, ?_, ?_⟩
    . rw [owned_snoc, hleft, h.left]
      rfl
    . rw [owned_snoc, hsteps.owns, h.right]
      rfl
    . rw [threw_snoc, hleft, h.left_threw]
      simp
    . rw [threw_snoc, hsteps.threw, h.right_threw]
      rfl

theorem history_runs {G : Objects → Choice ⊕ Choice → Prop} (hsrc : src.reserved input ⊆ table)
    (hdst : dst.reserved output ⊆ table) (hruns : (machine enableCache).Runs G (init table src dst) tr s) :
    History ((table \ src.reserved input) \ dst.reserved output) src dst tr s := by
  apply hruns.history (I := History _ src dst)
  . exact fun _ _ _ _ _ h _ hstep => history_step h hstep
  . exact ⟨inv_init hsrc hdst, Object.held_create, Object.held_create, rfl, rfl⟩

/--
What can be said of the descriptors of the process after the steps `tr`. An object without a handle has
never been initialized when it is destroyed, or has failed to open anything.
-/
structure Safe (enableCache : Bool) (table : Finset Nat) (src dst : Interface)
    (tr : List ((Choice ⊕ Choice) × Option ((Syscall × Answer) × Answer))) (s : Objects) : Prop where
  shares : Shares s.shared ((table \ src.reserved input) \ dst.reserved output)
    (owned Sum.isLeft (src.reserved input) tr) (owned Sum.isRight (dst.reserved output) tr)
  touches (x : Choice ⊕ Choice) (s' : Objects) (l : Option ((Syscall × Answer) × Answer)) (fd : Nat) :
    (machine enableCache).step s x = some (s', l) → Object.touched l = some fd →
      fd ∈ match x with
        | .inl _ => owned Sum.isLeft (src.reserved input) tr
        | .inr _ => owned Sum.isRight (dst.reserved output) tr
  left_closed : s.left.pos = .destroyed →
    owned Sum.isLeft (src.reserved input) tr = if s.left.handle = none then src.reserved input else ∅
  right_closed : s.right.pos = .destroyed →
    owned Sum.isRight (dst.reserved output) tr = if s.right.handle = none then dst.reserved output else ∅
  left_threw : s.left.threw = threw Sum.isLeft tr
  right_threw : s.right.threw = threw Sum.isRight tr

theorem descriptors_safe (hsrc : src.reserved input ⊆ table) (hdst : dst.reserved output ⊆ table)
    (hruns : (machine enableCache).Runs Machine.always (init table src dst) tr s) :
    Safe enableCache table src dst tr s := by
  have h := history_runs hsrc hdst hruns
  constructor
  . rw [← h.left, ← h.right]
    exact h.inv.shares
  . intro x s' l fd hstep htouched
    obtain ⟨-, hside⟩ := inv_step h.inv hstep
    cases x with
    | inl x =>
      rw [← h.left]
      exact hside.1.touched fd htouched
    | inr x =>
      rw [← h.right]
      exact hside.1.touched fd htouched
  . intro hpos
    rw [← h.left, Object.held_of_destroyed hpos, h.inv.left_interface]
  . intro hpos
    rw [← h.right, Object.held_of_destroyed hpos, h.inv.right_interface]
  . exact h.left_threw
  . exact h.right_threw

def nameOf (c : Char) (h : c ≠ nul) : CString where
  chars := [c]
  nonzero c' hc := by
    obtain rfl := List.mem_singleton.mp hc
    exact h
  fits := by simp

theorem descriptors_safe_copy :
    ∃ tr s, (machine true).Runs Machine.always
        (init {0, 1, 2} (.file (nameOf '-' (by decide))) (.file (nameOf 'x' (by decide)))) tr s ∧
      s.left.pos = .destroyed ∧ s.right.pos = .destroyed ∧ s.shared = {1, 2} ∧
      Safe true {0, 1, 2} (.file (nameOf '-' (by decide))) (.file (nameOf 'x' (by decide))) tr s := by
  have hruns : (machine true).Runs Machine.always
      (init {0, 1, 2} (.file (nameOf '-' (by decide))) (.file (nameOf 'x' (by decide))))
      [(.inl (.answer 0 (.value 0)), none),
        (.inr (.answer 0 (.value 3)), some ((.open _ _, .value 3), .value 3)),
        (.inl (.answer 4 (.value 0)), some ((.read 0 4, .value 0), .value 0)),
        (.inr (.answer 4 (.error 28)), some ((.write 3 4, .error 28), .error 28)),
        (.inl (.answer 0 (.value 0)), some ((.close 0, .value 0), .value 0)),
        (.inr (.answer 0 (.value 0)), some ((.close 3, .value 0), .value 0))] _ :=
    .of_exec (fun _ _ _ => trivial) rfl
  exact ⟨_, _, hruns, rfl, rfl, by decide, descriptors_safe (by decide) (by decide) hruns⟩

end Objects
end Io
