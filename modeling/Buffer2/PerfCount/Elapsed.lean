import Buffer2.Machine.Cache
import Buffer2.Machine.Refinement
import Buffer2.PerfCount.Basic

/-!
This module contains the proof that a `PerfCount` is a cache of the time elapsed, which claims to be valid
before it has been filled.
-/

def Platform.Monotonic (platform : Platform) : Prop := Monotone fun k => (platform.now k).toNat

def Platform.elapsed (platform : Platform) (k : Nat) : Nat :=
  (platform.now k).toNat - (platform.now 0).toNat

theorem Platform.Monotonic.elapsed {platform : Platform} (h : platform.Monotonic) :
    Monotone platform.elapsed := by
  intro i j hij
  exact Nat.sub_le_sub_right (h hij) _

namespace PerfCount

/--
What a call is to the cache. The queries of the clock are the samples.
-/
def access (x : Operation × Event) : Option (Cache.Access × Cache.Answer Nat) :=
  match x.2 with
  | .updated => some (.invalidate, .invalidated)
  | .used elapsed none _ => some (.read, .hit elapsed.toNat)
  | .used elapsed (some k) _ => some (.read, .sampled k elapsed.toNat)
  | _ => none

def Session.cache (s : Session) : Cache Nat where
  value := s.count.elapsed.toNat
  valid := s.count.tvalid
  samples := s.queries

def Session.Inv (platform : Platform) (s : Session) : Prop :=
  s.count.startTime = platform.now 0

section

variable {platform : Platform} {s s' : Session} {op : Operation} {e : Event}
variable {f : PerfCount → Double}

theorem inv_init (platform : Platform) (p : PerfCount) : (Session.init platform p).Inv platform := by
  cases platform with
  | os2 freq timer => rfl
  | posix clock => rfl

theorem toNat_elapsed (h : platform.Monotonic) (k : Nat) :
    (platform.now k - platform.now 0).toNat = platform.elapsed k := by
  apply BitVec.toNat_sub_of_le
  exact h (Nat.zero_le k)

theorem use_of_valid (hvalid : s.count.tvalid = true) :
    s.use platform f = (s, .used s.count.elapsed none (f s.count)) := by
  simp [Session.use, Session.timeCheck, hvalid]

theorem use_of_invalid (hvalid : s.count.tvalid = false) :
    s.use platform f =
      ({ count := s.count.timeUpdate (platform.now s.queries), queries := s.queries + 1 },
        .used (platform.now s.queries - s.count.startTime) (some s.queries)
          (f (s.count.timeUpdate (platform.now s.queries)))) := by
  simp [Session.use, Session.timeCheck, hvalid, timeUpdate]

def Refines (platform : Platform) (s : Session) (op : Operation) (r : Session × Event) : Prop :=
  r.1.Inv platform ∧ Machine.Simulates (Cache.machine platform.elapsed) Machine.always Session.cache
    access s (op, r.2) r.1

theorem refines_use (hclock : platform.Monotonic) (h : s.Inv platform) :
    Refines platform s op (s.use platform f) := by
  cases hvalid : s.count.tvalid with
  | true =>
    rw [use_of_valid hvalid]
    refine ⟨h, trivial, ?_⟩
    simp [Cache.machine, Session.cache, hvalid]
  | false =>
    rw [use_of_invalid hvalid, h]
    refine ⟨h, trivial, ?_⟩
    simp only [Cache.machine, Session.cache, hvalid, timeUpdate]
    rw [h, toNat_elapsed hclock]
    rfl

theorem refines_step (op : Operation) (hclock : platform.Monotonic) (h : s.Inv platform) :
    Refines platform s op (s.step platform op) := by
  cases op with
  | update bytes => exact ⟨h, trivial, rfl⟩
  | getSeconds | getRate | getBlockRate => exact refines_use hclock h
  | getBytes | getBlocks | getAvgBlockSize => exact ⟨h, rfl⟩

theorem refines_cache {p : PerfCount} {tr : List (Operation × Event)} (hclock : platform.Monotonic)
    (h : (machine platform).Runs Machine.always (.init platform p) tr s) :
    (Cache.machine platform.elapsed).Runs Machine.always (Session.init platform p).cache
      (tr.filterMap access) s.cache := by
  apply h.refine (I := Session.Inv platform) _ _ (inv_init platform p)
  . intro s op s' e hinv _ hstep
    have hrefines := refines_step op hclock hinv
    rw [Option.some.inj hstep] at hrefines
    exact hrefines.1
  . intro s op s' e hinv _ hstep
    have hrefines := refines_step op hclock hinv
    rw [Option.some.inj hstep] at hrefines
    exact hrefines.2

end

/--
Every `Elapsed` that is used has been measured after the last `Update`, is used up to the next one, and
never decreases.
-/
def ElapsedIsMeasured : Prop :=
  ∀ (platform : Platform) (p : PerfCount) (tr : List (Operation × Event)) (s : Session),
    platform.Monotonic → (machine platform).Runs Machine.always (.init platform p) tr s →
      Cache.Accurate platform.elapsed (tr.filterMap access)

/--
No getter uses `Elapsed` before the first `Update`.
-/
def UpdatedFirst (tr : List (Operation × Event)) : Prop :=
  ∀ x ∈ (tr.filterMap access).head?, x.1 = .invalidate

theorem elapsed_measured_iff (platform : Platform) (p : PerfCount) (tr : List (Operation × Event))
    (s : Session) (hclock : platform.Monotonic)
    (h : (machine platform).Runs Machine.always (.init platform p) tr s) :
    Cache.Accurate platform.elapsed (tr.filterMap access) ↔ UpdatedFirst tr := by
  apply Cache.accurate_iff (refines_cache hclock h) hclock.elapsed
  cases platform with
  | os2 freq timer => rfl
  | posix clock => rfl

def stopped : Platform := .posix fun _ => { tvSec := 0, tvNsec := 0 }

theorem monotonic_stopped : stopped.Monotonic := by
  intro i j _
  exact le_refl _

def dirty : PerfCount where
  loops := 0
  bytesSoFar := 0
  startTime := 0
  freq := 0
  elapsed := 7000000000
  tvalid := false

/--
The time of an input that ends at once: seven seconds, although no time has elapsed.
-/
theorem runs_empty : (machine stopped).Runs Machine.always (.init stopped dirty)
    [(.getSeconds, .used 7000000000 none (.rat 7))] (.init stopped dirty) := by
  apply Machine.Runs.single trivial
  decide +kernel

theorem not_elapsedIsMeasured : ¬ ElapsedIsMeasured := by
  intro h
  have haccurate := h stopped dirty _ _ monotonic_stopped runs_empty
  obtain ⟨earlier, since, k, heq, _, hmem, _⟩ := haccurate.measured [] [] _ _ rfl rfl
  obtain ⟨rfl, rfl⟩ := List.append_eq_nil_iff.mp heq.symm
  simp at hmem

def ticking : Platform := .os2 10 fun k => BitVec.ofNat 64 (if k = 0 then 100 else 120)

theorem monotonic_ticking : ticking.Monotonic := by
  intro i j hij
  cases i with
  | zero => cases j <;> simp [ticking, Platform.now]
  | succ i =>
    cases j with
    | zero => omega
    | succ j => simp [ticking, Platform.now]

theorem runs_ticking : (machine ticking).Runs Machine.always (.init ticking dirty)
    [(.update 5, .updated), (.getSeconds, .used 20 (some 1) (.rat 2)), (.getBytes, .bytes 5),
      (.getRate, .used 20 none (.rat (5 / 2)))]
    { count := ((construct ticking dirty).update 5).timeUpdate 120, queries := 2 } := by
  apply Machine.Runs.of_exec
  . intro x _ s
    trivial
  . decide +kernel

theorem elapsed_measured_ticking : Cache.Accurate ticking.elapsed
    [(.invalidate, .invalidated), (.read, .sampled 1 20), (.read, .hit 20)] := by
  apply (elapsed_measured_iff _ _ _ _ monotonic_ticking runs_ticking).mpr
  simp [UpdatedFirst, access]

end PerfCount
