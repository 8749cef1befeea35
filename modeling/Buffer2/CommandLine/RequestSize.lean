import Buffer2.CommandLine.Settings
import Buffer2.Rounding.Binary64
import Buffer2.Workers.Requests

/-!
This module contains the proofs about the request size that the workers are started with.
-/

namespace CommandLine

open Scanf

/--
The sizes that the workers are started with are positive, and so is everything that they ask for.
-/
structure ProperRequests (s : Started) : Prop where
  bufferSize : 1 ≤ s.settings.config.bufferSize
  requestSize : 1 ≤ s.settings.config.requestSize
  contract (c : Layout) : c.bufferSize = s.settings.config.bufferSize.toNat →
    c.lowWaterMark = s.lowWaterMark → c.highWaterMark = s.highWaterMark →
      ∀ (G : Workers c → Choice ⊕ Choice → Prop) (stream : List UInt8)
        (tr : List ((Choice ⊕ Choice) × Option (Operation × Event))) (w : Workers c),
        (Workers.machine c s.settings.config.requestSize.toNat).Runs G (.init c stream) tr w →
          World.MeetsContract (Machine.calls tr)

/--
The last option `-b`, if there is one, asks for at least 4 bytes when its size is wrapped around in a
`long`.
-/
def BufferOfFour (args : List CString) : Prop :=
  ∀ cp n e, Fold.lastOf (hasLetter 'b') args = some cp → SizeText n e (cp.drop 2).chars →
    4 ≤ longMul (strtol n.value) (1024 ^ e)

def GivesRequestSize (args : List CString) : Prop := ∃ cp ∈ args, hasLetter 'r' cp = true

theorem bufferOfFour_iff {fl : Rounding} {args : List CString} {c : Config} (h : Describes fl args c) :
    BufferOfFour args ↔ 4 ≤ c.bufferSize := by
  have hbuffer := h.bufferSize
  unfold Fold.decided at hbuffer
  unfold BufferOfFour
  split at hbuffer
  . next hnone =>
    rw [← Except.ok.inj hbuffer, hnone]
    simp
  . next cp hlast =>
    have hsize := (parseSize_cases hbuffer).1
    rw [hlast]
    constructor
    . intro hall
      obtain ⟨n, e, htext, heq⟩ := sizeText_of_parseint hsize
      rw [heq]
      exact hall cp n e rfl htext
    . rintro hle cp' n e hcp htext
      cases hcp
      rw [parseint_text htext] at hsize
      rw [Except.ok.inj hsize]
      exact hle

theorem requestSize_cases {fl : Rounding} {args : List CString} {c : Config} (h : Describes fl args c) :
    (GivesRequestSize args ∧ 1 ≤ c.requestSize) ∨ (¬ GivesRequestSize args ∧ c.requestSize = -1) := by
  have hrequest := h.requestSize
  unfold Fold.decided at hrequest
  split at hrequest
  . next hnone =>
    right
    refine ⟨?_, (Except.ok.inj hrequest).symm⟩
    rintro ⟨cp, hcp, hletter⟩
    exact Fold.not_of_lastOf_none hnone cp hcp hletter
  . next cp hlast =>
    left
    exact ⟨⟨cp, Fold.mem_of_lastOf hlast⟩, (parseSize_cases hrequest).2⟩

theorem autoRequestSize_pos_iff {bufferSize : Int} (h : 1 ≤ bufferSize) :
    1 ≤ autoRequestSize bufferSize (-1) ↔ 4 ≤ bufferSize := by
  unfold autoRequestSize
  rw [if_pos (by decide)]
  rw [Int.tdiv_eq_ediv_of_nonneg (by omega), Int.tdiv_eq_ediv_of_nonneg (by omega)]
  split <;> omega

theorem requestSize_pos_iff {fl : Rounding} {args : List CString} {c d : Config} (h : Describes fl args c)
    (hcalc : Calculates fl c d) : 1 ≤ d.requestSize ↔ GivesRequestSize args ∨ BufferOfFour args := by
  rw [hcalc.requestSize, bufferOfFour_iff h]
  cases requestSize_cases h with
  | inl hgiven =>
    have hsame : autoRequestSize c.bufferSize c.requestSize = c.requestSize := by
      unfold autoRequestSize
      rw [if_neg (by omega)]
    rw [hsame]
    exact iff_of_true hgiven.2 (.inl hgiven.1)
  | inr hauto =>
    rw [hauto.2, autoRequestSize_pos_iff (bufferSize_pos h.bufferSize)]
    constructor
    . exact .inr
    . intro hor
      exact hor.resolve_left hauto.1

def RequestsAreProper : Prop := ∀ fl args s, main fl args = .ok (some s) → ProperRequests s

theorem properRequests_iff (fl : Rounding) (args : List CString) (s : Started)
    (h : main fl args = .ok (some s)) :
    ProperRequests s ↔ GivesRequestSize args ∨ BufferOfFour args := by
  obtain ⟨c, hsettles⟩ := settings_cases (main_cases h).1
  rw [← requestSize_pos_iff hsettles.describes hsettles.calculates]
  constructor
  . intro hproper
    exact hproper.requestSize
  . intro hpos
    constructor
    . rw [hsettles.calculates.bufferSize]
      exact bufferSize_pos hsettles.describes.bufferSize
    . exact hpos
    . intro l _ _ _ G stream tr w hruns
      apply Workers.meetsContract _ hruns
      omega

def oneByteOption : CString where
  chars := ['-', 'b', '=', '1']
  nonzero := List.all_iff_forall_prop.mp (by decide)
  fits := by decide

theorem main_oneByteOption :
    ∃ s, main Binary64.rounding [oneByteOption, standardStream, standardStream] = .ok (some s) ∧
      s.settings.config.requestSize = 0 := by
  have hrun : (main Binary64.rounding [oneByteOption, standardStream, standardStream]).toOption.any
      (Option.any fun s => decide (s.settings.config.requestSize = 0)) = true := by decide +kernel
  obtain ⟨o, hs, hany⟩ := Fold.exists_of_any hrun
  obtain ⟨s, rfl, hzero⟩ := (Option.any_eq_true _ _).mp hany
  exact ⟨s, hs, of_decide_eq_true hzero⟩

theorem not_requestsAreProper : ¬ RequestsAreProper := by
  intro h
  obtain ⟨s, hs, hzero⟩ := main_oneByteOption
  have hpos := (h _ _ s hs).requestSize
  rw [hzero] at hpos
  contradiction

theorem properRequests_iff_oneByte :
    ∃ s, main Binary64.rounding [oneByteOption, standardStream, standardStream] = .ok (some s) ∧
      ¬ ProperRequests s := by
  obtain ⟨s, hs, hzero⟩ := main_oneByteOption
  refine ⟨s, hs, ?_⟩
  rw [properRequests_iff _ _ s hs]
  rintro (⟨cp, hcp, hletter⟩ | hbuffer)
  . have hnone : ∀ arg ∈ [oneByteOption, standardStream, standardStream], hasLetter 'r' arg = false := by
      decide
    rw [hnone cp hcp] at hletter
    cases hletter
  . obtain ⟨n, e, htext, heq⟩ := sizeText_of_parseint (show parseint (oneByteOption.drop 2) = .ok 1 from rfl)
    have hfour := hbuffer oneByteOption n e rfl htext
    omega

end CommandLine
