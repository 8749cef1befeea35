import Buffer2.Fifo.Basic
import Buffer2.Memory.Ring

/-!
This module contains the representation invariant of `StaticFIFO`. Under it no operation wraps around
in the arithmetic of `size_t`, so every operation has an equation over the natural numbers.
-/

namespace StaticFIFO

variable {c : Layout}

def rdOffset (f : StaticFIFO c) : Nat := f.rdPos - c.bufferBegin

def wrOffset (f : StaticFIFO c) : Nat := f.wrPos - c.bufferBegin

structure Inv (f : StaticFIFO c) : Prop where
  rdPos_ge : c.bufferBegin ≤ f.rdPos
  rdPos_lt : f.rdPos < c.bufferBegin + c.bufferSize
  wrPos_ge : c.bufferBegin ≤ f.wrPos
  wrPos_lt : f.wrPos < c.bufferBegin + c.bufferSize
  level_le : f.level ≤ c.bufferSize
  wrOffset_eq : f.wrOffset = (f.rdOffset + f.level) % c.bufferSize
  wrReq_le_free : f.wrReq ≤ c.bufferSize - f.level
  wrReq_le_end : f.wrReq ≤ c.bufferSize - f.wrOffset
  rdReq_le_level : f.rdReq ≤ f.level
  rdReq_le_end : f.rdReq ≤ c.bufferSize - f.rdOffset

theorem inv_init (c : Layout) : (init c).Inv := by
  have := c.size_pos
  constructor <;> simp [init, rdOffset, wrOffset] <;> omega

namespace Inv

variable {f : StaticFIFO c}

theorem rdOffset_lt (h : f.Inv) : f.rdOffset < c.bufferSize := by
  have := h.rdPos_ge
  have := h.rdPos_lt
  unfold rdOffset
  omega

theorem wrOffset_lt (h : f.Inv) : f.wrOffset < c.bufferSize := by
  have := h.wrPos_ge
  have := h.wrPos_lt
  unfold wrOffset
  omega

theorem rdPos_eq (h : f.Inv) : f.rdPos = c.bufferBegin + f.rdOffset := by
  have := h.rdPos_ge
  unfold rdOffset
  omega

theorem wrPos_eq (h : f.Inv) : f.wrPos = c.bufferBegin + f.wrOffset := by
  have := h.wrPos_ge
  unfold wrOffset
  omega

theorem wrOffset_cases (h : f.Inv) :
    f.wrOffset =
      if f.rdOffset + f.level < c.bufferSize then
        f.rdOffset + f.level
      else
        f.rdOffset + f.level - c.bufferSize := by
  have := h.rdOffset_lt
  have := h.level_le
  rw [h.wrOffset_eq, Memory.mod_eq_ite (by omega)]

theorem size_lt (_ : f.Inv) : c.bufferSize < 2 ^ c.wordBits := by
  have := c.fits
  omega

theorem disjoint (h : f.Inv) {x : Nat} (hw : f.wrPos ≤ x ∧ x < f.wrPos + f.wrReq) :
    ¬ (f.rdPos ≤ x ∧ x < f.rdPos + f.rdReq) := by
  have := h.rdPos_eq
  have := h.wrPos_eq
  have := h.wrReq_le_free
  have := h.rdReq_le_level
  have := h.level_le
  have hcases := h.wrOffset_cases
  split at hcases <;> omega

end Inv

def writeGrant (f : StaticFIFO c) (len : Nat) : Nat :=
  min (min len (c.bufferSize - f.level)) (c.bufferSize - f.wrOffset)

def readGrant (f : StaticFIFO c) (len : Nat) : Nat :=
  min (min len f.level) (c.bufferSize - f.rdOffset)

theorem writeGrant_pos {f : StaticFIFO c} {len : Nat} (h : f.Inv) (hlen : 0 < len)
    (hlevel : f.level < c.bufferSize) : 0 < f.writeGrant len := by
  have := h.wrOffset_lt
  unfold writeGrant
  omega

theorem readGrant_pos {f : StaticFIFO c} {len : Nat} (h : f.Inv) (hlen : 0 < len)
    (hlevel : 0 < f.level) : 0 < f.readGrant len := by
  have := h.rdOffset_lt
  unfold readGrant
  omega

theorem writeGrant_le (f : StaticFIFO c) (len : Nat) : f.writeGrant len ≤ len := by
  unfold writeGrant
  omega

theorem readGrant_le (f : StaticFIFO c) (len : Nat) : f.readGrant len ≤ len := by
  unfold readGrant
  omega

@[simps -fullyApplied]
def grantWrite (f : StaticFIFO c) (len : Nat) : StaticFIFO c :=
  { f with wrReq := f.writeGrant len }

@[simps -fullyApplied]
def grantRead (f : StaticFIFO c) (len : Nat) : StaticFIFO c :=
  { f with rdReq := f.readGrant len }

def advance (c : Layout) (pos len : Nat) : Nat :=
  if pos + len = c.bufferBegin + c.bufferSize then c.bufferBegin else pos + len

@[simps -fullyApplied]
def wrote (f : StaticFIFO c) (len : Nat) : StaticFIFO c :=
  { f with wrReq := 0, wrPos := advance c f.wrPos len, level := f.level + len }

@[simps -fullyApplied]
def took (f : StaticFIFO c) (len : Nat) : StaticFIFO c :=
  { f with rdReq := 0, rdPos := advance c f.rdPos len, level := f.level - len }

theorem ite_gt_eq_min (a b : Nat) : (if a > b then b else a) = min a b := by
  split <;> omega

theorem requestWritePass_eq {f : StaticFIFO c} (h : f.Inv) (len : Nat) :
    f.requestWritePass len =
      if f.eos then
        (.ended, f)
      else if f.level < c.bufferSize then
        (.granted f.wrPos (f.writeGrant len), f.grantWrite len)
      else
        (.wait, { f with fullCount := f.fullCount + 1 }) := by
  have hrem : Word.sub c.wordBits c.bufferSize f.level = c.bufferSize - f.level :=
    Word.sub_eq_of_le h.level_le h.size_lt
  have hend : Word.sub c.wordBits c.bufferEnd f.wrPos = c.bufferSize - f.wrOffset := by
    have := h.wrPos_lt
    have := h.wrPos_eq
    rw [c.bufferEnd_eq, Word.sub_eq_of_le (by omega) c.fits]
    omega
  unfold requestWritePass
  simp only [hrem, hend, ite_gt_eq_min, gt_iff_lt, Nat.sub_pos_iff_lt, writeGrant, grantWrite]

theorem requestReadPass_eq {f : StaticFIFO c} (h : f.Inv) (len : Nat) :
    f.requestReadPass len =
      if 0 < f.level then
        (.granted f.rdPos (f.readGrant len), f.grantRead len)
      else if f.eos then
        (.ended, f)
      else
        (.wait, { f with emptyCount := f.emptyCount + 1 }) := by
  have hend : Word.sub c.wordBits c.bufferEnd f.rdPos = c.bufferSize - f.rdOffset := by
    have := h.rdPos_lt
    have := h.rdPos_eq
    rw [c.bufferEnd_eq, Word.sub_eq_of_le (by omega) c.fits]
    omega
  unfold requestReadPass
  simp only [hend, ite_gt_eq_min, gt_iff_lt, readGrant, grantRead]

theorem commitWrite_eq {f : StaticFIFO c} (h : f.Inv) (data len : Nat) :
    f.commitWrite data len =
      if data ≠ f.wrPos then
        .error .notRequested
      else if f.wrReq < len then
        .error .largerThanRequested
      else
        .ok (f.wrote len, decide (c.highWaterMark ≤ f.level + len)) := by
  have := h.wrReq_le_free
  have := h.wrReq_le_end
  have := h.wrPos_eq
  have := h.wrOffset_lt
  have := h.level_le
  have := c.fits
  unfold commitWrite
  split
  . rfl
  . split
    . rfl
    . rw [Word.add_eq_of_lt (by omega), Word.add_eq_of_lt (by omega), c.bufferEnd_eq]
      rfl

theorem commitRead_eq {f : StaticFIFO c} (h : f.Inv) (data len : Nat) :
    f.commitRead data len =
      if data ≠ f.rdPos then
        .error .notRequested
      else if f.rdReq < len then
        .error .largerThanRequested
      else
        .ok (f.took len, decide (f.level - len ≤ c.lowWaterMark)) := by
  have := h.rdReq_le_level
  have := h.rdReq_le_end
  have := h.rdPos_eq
  have := h.rdOffset_lt
  have := h.level_le
  have := c.fits
  unfold commitRead
  split
  . rfl
  . split
    . rfl
    . rw [Word.add_eq_of_lt (by omega), Word.sub_eq_of_le (by omega) (by omega), c.bufferEnd_eq]
      rfl

theorem advance_offset {pos len : Nat} (hge : c.bufferBegin ≤ pos)
    (hlen : len ≤ c.bufferSize - (pos - c.bufferBegin)) (hlt : pos < c.bufferBegin + c.bufferSize) :
    advance c pos len - c.bufferBegin = (pos - c.bufferBegin + len) % c.bufferSize := by
  rw [Memory.mod_eq_ite (by omega)]
  unfold advance
  split <;> split <;> omega

theorem advance_bounds {pos len : Nat} (hge : c.bufferBegin ≤ pos)
    (hlen : len ≤ c.bufferSize - (pos - c.bufferBegin)) (hlt : pos < c.bufferBegin + c.bufferSize) :
    c.bufferBegin ≤ advance c pos len ∧ advance c pos len < c.bufferBegin + c.bufferSize := by
  have := c.size_pos
  unfold advance
  split <;> omega

namespace Inv

variable {f : StaticFIFO c}

theorem grantWrite (h : f.Inv) (len : Nat) : (f.grantWrite len).Inv :=
  { h with
    wrReq_le_free := by
      show f.writeGrant len ≤ c.bufferSize - f.level
      unfold writeGrant
      omega
    wrReq_le_end := by
      show f.writeGrant len ≤ c.bufferSize - f.wrOffset
      unfold writeGrant
      omega }

theorem grantRead (h : f.Inv) (len : Nat) : (f.grantRead len).Inv :=
  { h with
    rdReq_le_level := by
      show f.readGrant len ≤ f.level
      unfold readGrant
      omega
    rdReq_le_end := by
      show f.readGrant len ≤ c.bufferSize - f.rdOffset
      unfold readGrant
      omega }

theorem wrote_offset (h : f.Inv) {len : Nat} (hlen : len ≤ f.wrReq) :
    (f.wrote len).wrOffset = (f.wrOffset + len) % c.bufferSize :=
  advance_offset h.wrPos_ge (Nat.le_trans hlen h.wrReq_le_end) h.wrPos_lt

theorem took_offset (h : f.Inv) {len : Nat} (hlen : len ≤ f.rdReq) :
    (f.took len).rdOffset = (f.rdOffset + len) % c.bufferSize :=
  advance_offset h.rdPos_ge (Nat.le_trans hlen h.rdReq_le_end) h.rdPos_lt

theorem wrote (h : f.Inv) {len : Nat} (hlen : len ≤ f.wrReq) : (f.wrote len).Inv := by
  have hbounds := advance_bounds h.wrPos_ge (Nat.le_trans hlen h.wrReq_le_end) h.wrPos_lt
  have hfree := h.wrReq_le_free
  have hlevel := h.level_le
  have hrd := h.rdReq_le_level
  exact
    { h with
      wrPos_ge := hbounds.1
      wrPos_lt := hbounds.2
      level_le := by
        show f.level + len ≤ c.bufferSize
        omega
      wrOffset_eq := by
        show (f.wrote len).wrOffset = (f.rdOffset + (f.level + len)) % c.bufferSize
        rw [h.wrote_offset hlen, h.wrOffset_eq, Nat.mod_add_mod, Nat.add_assoc]
      wrReq_le_free := Nat.zero_le _
      wrReq_le_end := Nat.zero_le _
      rdReq_le_level := by
        show f.rdReq ≤ f.level + len
        omega }

theorem took (h : f.Inv) {len : Nat} (hlen : len ≤ f.rdReq) : (f.took len).Inv := by
  have hbounds := advance_bounds h.rdPos_ge (Nat.le_trans hlen h.rdReq_le_end) h.rdPos_lt
  have hfree := h.wrReq_le_free
  have hlevel := h.level_le
  have hrd := h.rdReq_le_level
  exact
    { h with
      rdPos_ge := hbounds.1
      rdPos_lt := hbounds.2
      level_le := by
        show f.level - len ≤ c.bufferSize
        omega
      wrOffset_eq := by
        show f.wrOffset = ((f.took len).rdOffset + (f.level - len)) % c.bufferSize
        -- The read position gains what the level loses.
        rw [h.took_offset hlen, h.wrOffset_eq, Nat.mod_add_mod]
        congr 1
        omega
      wrReq_le_free := by
        show f.wrReq ≤ c.bufferSize - (f.level - len)
        omega
      rdReq_le_level := Nat.zero_le _
      rdReq_le_end := Nat.zero_le _ }

theorem endWrite (h : f.Inv) : f.endWrite.Inv :=
  { h with
    wrReq_le_free := Nat.zero_le _
    wrReq_le_end := Nat.zero_le _ }

theorem endRead (h : f.Inv) : f.endRead.Inv :=
  { h with
    rdReq_le_level := Nat.zero_le _
    rdReq_le_end := Nat.zero_le _ }

theorem store (h : f.Inv) (addr : Nat) (b : UInt8) : (f.store addr b).Inv :=
  { h with }

end Inv
end StaticFIFO
