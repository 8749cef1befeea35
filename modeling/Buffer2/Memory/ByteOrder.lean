import Mathlib.Algebra.Group.Nat.Defs

/-!
This module contains the conversions between the byte order of the host and the one of the network.
-/

inductive ByteOrder
  | little
  | big
  deriving DecidableEq

def swapShort (x : BitVec 16) : BitVec 16 :=
  .ofNat 16 (x.toNat % 2 ^ 8 * 2 ^ 8 + x.toNat / 2 ^ 8)

def swapLong (x : BitVec 32) : BitVec 32 :=
  .ofNat 32 (x.toNat % 2 ^ 8 * 2 ^ 24 + x.toNat / 2 ^ 8 % 2 ^ 8 * 2 ^ 16 +
    x.toNat / 2 ^ 16 % 2 ^ 8 * 2 ^ 8 + x.toNat / 2 ^ 24)

theorem swapShort_bytes {a b : Nat} (ha : a < 2 ^ 8) (hb : b < 2 ^ 8) :
    swapShort (.ofNat 16 (a * 2 ^ 8 + b)) = .ofNat 16 (b * 2 ^ 8 + a) := by
  have hsmall : (a * 2 ^ 8 + b) % 2 ^ 16 = a * 2 ^ 8 + b := by omega
  have hlow : (a * 2 ^ 8 + b) % 2 ^ 8 = b := by omega
  have hhigh : (a * 2 ^ 8 + b) / 2 ^ 8 = a := by omega
  unfold swapShort
  simp only [BitVec.toNat_ofNat, hsmall, hlow, hhigh]

theorem swapLong_bytes {a b c d n : Nat} (ha : a < 2 ^ 8) (hb : b < 2 ^ 8) (hc : c < 2 ^ 8)
    (hd : d < 2 ^ 8) (hn : n = a * 2 ^ 24 + b * 2 ^ 16 + c * 2 ^ 8 + d) :
    swapLong (.ofNat 32 n) = .ofNat 32 (d * 2 ^ 24 + c * 2 ^ 16 + b * 2 ^ 8 + a) := by
  have hsmall : n % 2 ^ 32 = n := by omega
  have h0 : n % 2 ^ 8 = d := by omega
  have h8 : n / 2 ^ 8 % 2 ^ 8 = c := by omega
  have h16 : n / 2 ^ 16 % 2 ^ 8 = b := by omega
  have h24 : n / 2 ^ 24 = a := by omega
  unfold swapLong
  simp only [BitVec.toNat_ofNat, hsmall, h0, h8, h16, h24]

theorem exists_bytes_short (x : BitVec 16) :
    ∃ a b, a < 2 ^ 8 ∧ b < 2 ^ 8 ∧ x = .ofNat 16 (a * 2 ^ 8 + b) := by
  have hx := x.isLt
  refine ⟨x.toNat / 2 ^ 8, x.toNat % 2 ^ 8, by omega, by omega, ?_⟩
  apply BitVec.eq_of_toNat_eq
  rw [BitVec.toNat_ofNat]
  omega

theorem exists_bytes_long (x : BitVec 32) :
    ∃ a b c d, a < 2 ^ 8 ∧ b < 2 ^ 8 ∧ c < 2 ^ 8 ∧ d < 2 ^ 8 ∧
      x = .ofNat 32 (a * 2 ^ 24 + b * 2 ^ 16 + c * 2 ^ 8 + d) := by
  have hx := x.isLt
  refine ⟨x.toNat / 2 ^ 24, x.toNat / 2 ^ 16 % 2 ^ 8, x.toNat / 2 ^ 8 % 2 ^ 8, x.toNat % 2 ^ 8,
    by omega, by omega, by omega, by omega, ?_⟩
  apply BitVec.eq_of_toNat_eq
  rw [BitVec.toNat_ofNat]
  omega

theorem swapShort_swapShort (x : BitVec 16) : swapShort (swapShort x) = x := by
  obtain ⟨a, b, ha, hb, rfl⟩ := exists_bytes_short x
  rw [swapShort_bytes ha hb]
  rw [swapShort_bytes hb ha]

theorem swapLong_swapLong (x : BitVec 32) : swapLong (swapLong x) = x := by
  obtain ⟨a, b, c, d, ha, hb, hc, hd, rfl⟩ := exists_bytes_long x
  rw [swapLong_bytes ha hb hc hd rfl]
  rw [swapLong_bytes hd hc hb ha rfl]

namespace ByteOrder

def htons (order : ByteOrder) (x : BitVec 16) : BitVec 16 :=
  match order with
  | .little => swapShort x
  | .big => x

def ntohs (order : ByteOrder) (x : BitVec 16) : BitVec 16 :=
  match order with
  | .little => swapShort x
  | .big => x

def htonl (order : ByteOrder) (x : BitVec 32) : BitVec 32 :=
  match order with
  | .little => swapLong x
  | .big => x

def ntohl (order : ByteOrder) (x : BitVec 32) : BitVec 32 :=
  match order with
  | .little => swapLong x
  | .big => x

variable (order : ByteOrder)

@[simp]
theorem ntohs_htons (x : BitVec 16) : order.ntohs (order.htons x) = x := by
  cases order with
  | little => exact swapShort_swapShort x
  | big => rfl

@[simp]
theorem htons_ntohs (x : BitVec 16) : order.htons (order.ntohs x) = x := by
  cases order with
  | little => exact swapShort_swapShort x
  | big => rfl

@[simp]
theorem ntohl_htonl (x : BitVec 32) : order.ntohl (order.htonl x) = x := by
  cases order with
  | little => exact swapLong_swapLong x
  | big => rfl

@[simp]
theorem htonl_ntohl (x : BitVec 32) : order.htonl (order.ntohl x) = x := by
  cases order with
  | little => exact swapLong_swapLong x
  | big => rfl

end ByteOrder
