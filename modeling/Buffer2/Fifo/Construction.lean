import Mathlib.Data.BitVec
import Buffer2.Fifo.Steps

/-!
This module contains the constructor of `StaticFIFO`, which places the buffer at a multiple of the
alignment inside of a larger vector, and what this means for every state of the object.
-/

/--
`BufferBegin`, from the address of the vector. `int`, `size_t` and addresses have 32 bits here.
-/
def alignedBegin (vector alignment : BitVec 32) : BitVec 32 := (vector + alignment) &&& -alignment

theorem neg_twoPow_eq_not {k : Nat} (hk : k < 32) :
    -(BitVec.ofNat 32 (2 ^ k)) = ~~~ (BitVec.ofNat 32 (2 ^ k - 1)) := by
  have hpos : 0 < 2 ^ k := Nat.two_pow_pos k
  have hlt : 2 ^ k < 2 ^ 32 := Nat.pow_lt_pow_right (by omega) hk
  apply BitVec.eq_of_toNat_eq
  rw [BitVec.toNat_neg, BitVec.toNat_not, BitVec.toNat_ofNat, BitVec.toNat_ofNat]
  rw [Nat.mod_eq_of_lt hlt, Nat.mod_eq_of_lt (a := 2 ^ k - 1) (by omega)]
  rw [Nat.mod_eq_of_lt (by omega)]
  omega

theorem and_neg_twoPow {x : BitVec 32} {k : Nat} (hk : k < 32) :
    (x &&& -(BitVec.ofNat 32 (2 ^ k))).toNat = x.toNat / 2 ^ k * 2 ^ k := by
  have hbits : x &&& -(BitVec.ofNat 32 (2 ^ k)) = (x >>> k) <<< k := by
    rw [neg_twoPow_eq_not hk]
    apply BitVec.eq_of_getLsbD_eq
    intro i hi
    simp only [BitVec.getLsbD_and, BitVec.getLsbD_not, BitVec.getLsbD_ofNat, hi, decide_true,
      Bool.true_and, Nat.testBit_two_pow_sub_one, BitVec.getLsbD_shiftLeft, BitVec.getLsbD_ushiftRight]
    -- The mask clears the `k` lowest bits, and so does shifting them out.
    by_cases h : i < k
    . simp [h]
    . simp [h, show k + (i - k) = i by omega]
  have hle : x.toNat / 2 ^ k * 2 ^ k ≤ x.toNat := Nat.div_mul_le_self _ _
  have hlt := x.isLt
  rw [hbits, BitVec.toNat_shiftLeft, BitVec.toNat_ushiftRight, Nat.shiftRight_eq_div_pow,
    Nat.shiftLeft_eq, Nat.mod_eq_of_lt (by omega)]

section

variable {alignment : Nat}

theorem alignedBegin_eq (vector : Nat) (ha : alignment.isPowerOfTwo) (hfits : vector + alignment < 2 ^ 32) :
    (alignedBegin (BitVec.ofNat 32 vector) (BitVec.ofNat 32 alignment)).toNat =
      (vector + alignment) / alignment * alignment := by
  obtain ⟨k, rfl⟩ := ha
  have hk : k < 32 := (Nat.pow_lt_pow_iff_right (by omega)).mp (by omega : 2 ^ k < 2 ^ 32)
  unfold alignedBegin
  rw [and_neg_twoPow hk, BitVec.toNat_add, BitVec.toNat_ofNat, BitVec.toNat_ofNat]
  rw [← Nat.add_mod, Nat.mod_eq_of_lt hfits]

theorem alignedBegin_bounds (vector : Nat) (ha : alignment.isPowerOfTwo)
    (hfits : vector + alignment < 2 ^ 32) :
    vector ≤ (alignedBegin (BitVec.ofNat 32 vector) (BitVec.ofNat 32 alignment)).toNat ∧
      (alignedBegin (BitVec.ofNat 32 vector) (BitVec.ofNat 32 alignment)).toNat ≤
        vector + alignment := by
  rw [alignedBegin_eq _ ha hfits]
  have hpos : 0 < alignment := by
    obtain ⟨k, rfl⟩ := ha
    exact Nat.two_pow_pos k
  have hmod := Nat.mod_lt (vector + alignment) hpos
  have hdiv := Nat.div_add_mod' (vector + alignment) alignment
  omega

end

/--
The members that the constructor sets, from the address of the vector of `bufferSize + alignment`
bytes and the water marks in bytes.
-/
def Layout.construct (vector bufferSize alignment highWaterMark lowWaterMark : Nat)
    (hsize : 0 < bufferSize) (ha : alignment.isPowerOfTwo)
    (hfits : vector + (bufferSize + alignment) < 2 ^ 32) (hhigh : highWaterMark ≤ bufferSize)
    (hlow : lowWaterMark ≤ bufferSize) : Layout where
  wordBits := 32
  bufferBegin := (alignedBegin (BitVec.ofNat 32 vector) (BitVec.ofNat 32 alignment)).toNat
  bufferSize := bufferSize
  lowWaterMark := lowWaterMark
  highWaterMark := highWaterMark
  size_pos := hsize
  fits := by
    have := alignedBegin_bounds vector ha (by omega)
    omega
  low_le := hlow
  high_le := hhigh

namespace StaticFIFO

variable {c : Layout}

structure InVector (vector alignment : Nat) (f : StaticFIFO c) : Prop where
  aligned : alignment ∣ c.bufferBegin
  begin_ge : vector ≤ c.bufferBegin
  end_le : c.bufferEnd ≤ vector + (c.bufferSize + alignment)
  write_ge : vector ≤ f.wrPos
  write_le : f.wrPos + f.wrReq ≤ vector + (c.bufferSize + alignment)
  read_ge : vector ≤ f.rdPos
  read_le : f.rdPos + f.rdReq ≤ vector + (c.bufferSize + alignment)
  disjoint (x : Nat) : f.wrPos ≤ x ∧ x < f.wrPos + f.wrReq → ¬ (f.rdPos ≤ x ∧ x < f.rdPos + f.rdReq)

structure NoWrap (f : StaticFIFO c) : Prop where
  free : Word.sub c.wordBits c.bufferSize f.level + f.level = c.bufferSize
  commitWrite (data len : Nat) (f' : StaticFIFO c) (notify : Bool) :
    f.commitWrite data len = .ok (f', notify) → f'.level = f.level + len ∧ f'.level ≤ c.bufferSize
  commitRead (data len : Nat) (f' : StaticFIFO c) (notify : Bool) :
    f.commitRead data len = .ok (f', notify) → f'.level + len = f.level

theorem Inv.noWrap {f : StaticFIFO c} (h : f.Inv) : f.NoWrap where
  free := by
    rw [Word.sub_eq_of_le h.level_le h.size_lt]
    exact Nat.sub_add_cancel h.level_le
  commitWrite data len f' notify hcommit := by
    rw [commitWrite_eq h] at hcommit
    split at hcommit
    . cases hcommit
    . split at hcommit
      . cases hcommit
      . next hlen =>
        cases hcommit
        exact ⟨rfl, (h.wrote (Nat.le_of_not_lt hlen)).level_le⟩
  commitRead data len f' notify hcommit := by
    rw [commitRead_eq h] at hcommit
    split at hcommit
    . cases hcommit
    . split at hcommit
      . cases hcommit
      . next hlen =>
        have := h.rdReq_le_level
        cases hcommit
        show f.level - len + len = f.level
        omega

theorem Inv.inVector {f : StaticFIFO c} (h : f.Inv) {vector alignment : Nat}
    (haligned : alignment ∣ c.bufferBegin) (hge : vector ≤ c.bufferBegin)
    (hle : c.bufferBegin ≤ vector + alignment) : f.InVector vector alignment := by
  have hwr := h.wrPos_eq
  have hrd := h.rdPos_eq
  have hwrlt := h.wrOffset_lt
  have hrdlt := h.rdOffset_lt
  have hwrReq := h.wrReq_le_end
  have hrdReq := h.rdReq_le_end
  exact
    { aligned := haligned
      begin_ge := hge
      end_le := by
        rw [c.bufferEnd_eq]
        omega
      write_ge := by omega
      write_le := by omega
      read_ge := by omega
      read_le := by omega
      disjoint := fun _ hw => h.disjoint hw }

end StaticFIFO

theorem construct_inv (vector bufferSize alignment highWaterMark lowWaterMark : Nat)
    (hsize : 0 < bufferSize) (ha : alignment.isPowerOfTwo)
    (hfits : vector + (bufferSize + alignment) < 2 ^ 32) (hhigh : highWaterMark ≤ bufferSize)
    (hlow : lowWaterMark ≤ bufferSize)
    (tr : List (Operation × Event))
    (w : World (.construct vector bufferSize alignment highWaterMark lowWaterMark hsize ha hfits hhigh hlow))
    (h : (World.machine _).Runs Machine.always (.init _) tr w) :
    w.fifo.Inv ∧ w.fifo.InVector vector alignment ∧ w.fifo.NoWrap := by
  have hinv := ((World.inv_init _).runs h).fifo
  have hbounds := alignedBegin_bounds vector ha (by omega)
  refine ⟨hinv, hinv.inVector ?_ hbounds.1 hbounds.2, hinv.noWrap⟩
  show alignment ∣ (alignedBegin (BitVec.ofNat 32 vector) (BitVec.ofNat 32 alignment)).toNat
  rw [alignedBegin_eq _ ha (by omega)]
  exact Nat.dvd_mul_left _ _

theorem construct_inv_aligned :
    ∃ tr, ∃ w : World (.construct 4100 3 4 0 3 (by decide) ⟨2, rfl⟩ (by decide) (by decide) (by decide)),
      (World.machine _).Runs Machine.always (.init _) tr w ∧ w.fifo.wrReq = 3 ∧ w.fifo.Inv ∧
        w.fifo.InVector 4100 4 := by
  have hruns : (World.machine
      (.construct 4100 3 4 0 3 (by decide) ⟨2, rfl⟩ (by decide) (by decide) (by decide))).Runs
      Machine.always (.init _) [(.requestWrite 5, .entered), (.passWrite, .granted 4104 3),
        (.commitWrite 4104 4, .threw .largerThanRequested)] _ :=
    .of_exec (fun _ _ _ => trivial) rfl
  have hinv := construct_inv 4100 3 4 0 3 (by decide) ⟨2, rfl⟩ (by decide) (by decide) (by decide) _ _
    hruns
  exact ⟨_, _, hruns, rfl, hinv.1, hinv.2.1⟩
