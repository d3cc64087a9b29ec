import Mathlib.Data.Nat.Bitwise
import Mathlib.Data.Nat.Log
import Mathlib.Order.Bounds.Defs
import UltraHft.Lib.Cyclic
import UltraHft.MarketData.FlatOrderMap

/-!
# The geometry of the slot array

`nextPow2` smears the leading bit of `n - 1` over all lower positions, so a
table has a power-of-two number of slots (none at all for a request above
`2 ^ 63`).  Masking is then reduction modulo the capacity, and the wrapping
subtraction under the mask is the distance on the ring of slots.
-/

namespace UltraHft.MarketData.FlatOrderMap

open UltraHft.Lib

/-! ## `nextPow2` -/

/-- The bits of `n` smeared over the `w` positions below each of them. -/
def Smeared (x n w : Nat) : Prop :=
  ∀ i, n.testBit i ↔ ∃ j, j < w ∧ x.testBit (i + j)

theorem smeared_one (x : Nat) : Smeared x x 1 := by
  intro i
  constructor
  · intro h
    exact ⟨0, by omega, h⟩
  · rintro ⟨j, hj, h⟩
    obtain rfl : j = 0 := by omega
    exact h

theorem Smeared.double {x n w : Nat} (h : Smeared x n w) :
    Smeared x (n ||| n >>> w) (w + w) := by
  intro i
  rw [Nat.testBit_or, Nat.testBit_shiftRight, Bool.or_eq_true, h i, h (w + i)]
  constructor
  · rintro (⟨j, hj, hx⟩ | ⟨j, hj, hx⟩)
    · exact ⟨j, by omega, hx⟩
    · exact ⟨w + j, by omega, by rwa [show i + (w + j) = w + i + j by omega]⟩
  · rintro ⟨j, hj, hx⟩
    by_cases hw : j < w
    · exact .inl ⟨j, hw, hx⟩
    · exact .inr ⟨j - w, by omega, by rwa [show w + i + (j - w) = i + j by omega]⟩

/-- A positive 64-bit value smeared over 64 positions is all ones below its
leading bit. -/
theorem Smeared.eq_two_pow {x n : Nat} (h : Smeared x n 64) (hx : x < 2 ^ 64)
    (hpos : x ≠ 0) : n = 2 ^ (x.log2 + 1) - 1 := by
  apply Nat.eq_of_testBit_eq
  intro i
  rw [Nat.testBit_two_pow_sub_one, Bool.eq_iff_iff, h i, decide_eq_true_eq]
  constructor
  · rintro ⟨j, -, hbit⟩
    have hle : i + j ≤ x.log2 := by
      by_contra hgt
      have hlt : x < 2 ^ (i + j) :=
        (Nat.log2_lt hpos).mp (by omega)
      rw [Nat.testBit_lt_two_pow hlt] at hbit
      cases hbit
    omega
  · intro hi
    have hlog : x.log2 < 64 := (Nat.log2_lt hpos).mpr hx
    refine ⟨x.log2 - i, by omega, ?_⟩
    rw [show i + (x.log2 - i) = x.log2 by omega]
    exact Nat.testBit_log2 hpos

theorem smear_toNat (n : UInt64) (w : Nat) (k : UInt64) (hk : k.toNat = w) (hw : w < 64) :
    (n ||| (n >>> k)).toNat = n.toNat ||| n.toNat >>> w := by
  rw [UInt64.toNat_or, UInt64.toNat_shiftRight, hk, Nat.mod_eq_of_lt hw]

theorem nextPow2_of_one_lt {n : UInt64} (hn : 1 < n.toNat) :
    (nextPow2 n).toNat = 2 ^ ((n.toNat - 1).log2 + 1) % 2 ^ 64 := by
  have hne : n ≠ 0 := by
    rintro rfl
    simp at hn
  have hle : (1 : UInt64) ≤ n := by
    rw [UInt64.le_iff_toNat_le]
    simp
    omega
  have hsub : (n - 1).toNat = n.toNat - 1 := UInt64.toNat_sub_of_le _ _ hle
  have hlt := n.toNat_lt
  have hsm := (((((smeared_one (n.toNat - 1)).double).double).double).double).double.double
  unfold nextPow2
  simp only [if_neg hne, UInt64.toNat_add]
  rw [smear_toNat _ 32 32 rfl (by omega), smear_toNat _ 16 16 rfl (by omega),
    smear_toNat _ 8 8 rfl (by omega), smear_toNat _ 4 4 rfl (by omega),
    smear_toNat _ 2 2 rfl (by omega), smear_toNat _ 1 1 rfl (by omega), hsub,
    hsm.eq_two_pow (by omega) (by omega)]
  have hpos : 0 < 2 ^ ((n.toNat - 1).log2 + 1) := Nat.two_pow_pos _
  rw [show (1 : UInt64).toNat = 1 from rfl]
  congr 1
  omega

/-- Every request yields a power of two up to `2 ^ 63`, or nothing. -/
theorem nextPow2_cases (n : UInt64) :
    (nextPow2 n).toNat = 0 ∨ ∃ k ≤ 63, (nextPow2 n).toNat = 2 ^ k := by
  by_cases hn : 1 < n.toNat
  · rw [nextPow2_of_one_lt hn]
    have hlog : (n.toNat - 1).log2 < 64 := by
      rw [Nat.log2_lt (by omega)]
      have := n.toNat_lt
      omega
    by_cases htop : (n.toNat - 1).log2 = 63
    · left
      rw [htop]
      exact Nat.mod_self (2 ^ 64)
    · right
      refine ⟨(n.toNat - 1).log2 + 1, by omega, ?_⟩
      apply Nat.mod_eq_of_lt
      exact Nat.pow_lt_pow_right (by omega) (by omega)
  · right
    have hn' : n = 0 ∨ n = 1 := by
      rcases Nat.le_one_iff_eq_zero_or_eq_one.mp (Nat.not_lt.mp hn) with h | h
      · exact .inl (UInt64.toNat_inj.mp h)
      · exact .inr (UInt64.toNat_inj.mp h)
    refine ⟨0, by omega, ?_⟩
    rcases hn' with rfl | rfl <;> decide

theorem log2_pred_add_one {n : Nat} (hn : 1 < n) : (n - 1).log2 + 1 = Nat.clog 2 n := by
  apply eq_of_forall_ge_iff
  intro k
  have hlog : (n - 1).log2 < k ↔ n - 1 < 2 ^ k := Nat.log2_lt (by omega)
  rw [Nat.clog_le_iff_le_pow (by omega), Nat.succ_le_iff, hlog]
  omega

theorem nextPow2_eq_pow_clog {n : UInt64} (hpos : 1 ≤ n.toNat) (hle : n.toNat ≤ 2 ^ 63) :
    (nextPow2 n).toNat = 2 ^ Nat.clog 2 n.toNat := by
  rcases Nat.lt_or_eq_of_le hpos with hn | hone
  · have hclog : Nat.clog 2 n.toNat ≤ 63 := Nat.clog_le_of_le_pow hle
    rw [nextPow2_of_one_lt hn, log2_pred_add_one hn]
    apply Nat.mod_eq_of_lt
    exact Nat.pow_lt_pow_right (by omega) (by omega)
  · obtain rfl : n = 1 := UInt64.toNat_inj.mp hone.symm
    decide

theorem isLeast_pow_clog (n : Nat) :
    IsLeast { p : Nat | p.isPowerOfTwo ∧ n ≤ p } (2 ^ Nat.clog 2 n) := by
  refine ⟨⟨⟨_, rfl⟩, Nat.le_pow_clog (by omega) n⟩, ?_⟩
  rintro p ⟨⟨k, rfl⟩, hle⟩
  exact Nat.pow_le_pow_right (by omega) (Nat.clog_le_of_le_pow hle)

/-! ## Masked indices -/

theorem sizeT_of_lt {n : Nat} (h : n < 2 ^ 64) : sizeT n = n := Nat.mod_eq_of_lt h

theorem sizePred_of_pos {n : Nat} (hpos : 0 < n) (h : n < 2 ^ 64) : sizePred n = n - 1 := by
  rw [sizePred, sizeT, show n + 2 ^ 64 - 1 = (n - 1) + 2 ^ 64 by omega, Nat.add_mod_right]
  exact Nat.mod_eq_of_lt (by omega)

structure Sized (m : FlatOrderMap) : Prop where
  pow2 : ∃ k ≤ 63, m.capacity_ = 2 ^ k
  mask : m.mask_ = m.capacity_ - 1

theorem new_capacity (c : UInt64) : (new c).capacity_ = (nextPow2 c).toNat := rfl

theorem new_sized {c : UInt64} (h : 0 < (new c).capacity_) : Sized (new c) := by
  rcases nextPow2_cases c with h₀ | ⟨k, hk, hpow⟩
  · rw [new_capacity, h₀] at h
    omega
  · refine ⟨⟨k, hk, hpow⟩, ?_⟩
    exact sizePred_of_pos h (nextPow2 c).toNat_lt

namespace Sized

variable {m : FlatOrderMap}

theorem capacity_pos (h : Sized m) : 0 < m.capacity_ := by
  obtain ⟨k, -, hk⟩ := h.pow2
  rw [hk]
  exact Nat.two_pow_pos k

theorem capacity_le (h : Sized m) : m.capacity_ ≤ 2 ^ 63 := by
  obtain ⟨k, hle, hk⟩ := h.pow2
  rw [hk]
  exact Nat.pow_le_pow_right (by omega) hle

theorem capacity_dvd (h : Sized m) : m.capacity_ ∣ 2 ^ 64 := by
  obtain ⟨k, hle, hk⟩ := h.pow2
  rw [hk]
  exact Nat.pow_dvd_pow 2 (by omega)

theorem and_mask (h : Sized m) (x : Nat) : x &&& m.mask_ = x % m.capacity_ := by
  obtain ⟨k, -, hk⟩ := h.pow2
  rw [h.mask, hk, Nat.and_two_pow_sub_one_eq_mod]

theorem sizeT_and_mask (h : Sized m) (x : Nat) : sizeT x &&& m.mask_ = x % m.capacity_ := by
  rw [h.and_mask, sizeT, Nat.mod_mod_of_dvd _ h.capacity_dvd]

theorem hash_lt (h : Sized m) (key : UInt64) : m.hash key < m.capacity_ := by
  rw [hash, h.and_mask]
  exact Nat.mod_lt _ h.capacity_pos

theorem next_eq (h : Sized m) : m.next = fun idx => (idx + 1) % m.capacity_ := by
  funext idx
  rw [next, h.sizeT_and_mask]

theorem distance_eq (h : Sized m) {a : Nat} (ha : a < m.capacity_) (b : Nat) :
    m.distance a b = Cyclic.dist m.capacity_ a b := by
  rw [distance, h.sizeT_and_mask, Cyclic.dist]
  obtain ⟨d, hd⟩ := h.capacity_dvd
  have hle := h.capacity_le
  -- the modulus of the wrapped difference is a multiple of the capacity
  obtain ⟨e, rfl⟩ : ∃ e, d = e + 1 := by
    refine ⟨d - 1, ?_⟩
    have : d ≠ 0 := by
      rintro rfl
      omega
    omega
  rw [hd, show b + m.capacity_ * (e + 1) - a =
    (b + m.capacity_ - a) + m.capacity_ * e by rw [Nat.mul_succ]; omega,
    Nat.add_mul_mod_self_left]

theorem testBit_mask (h : Sized m) :
    ∃ k, m.capacity_ = 2 ^ k ∧ ∀ i, m.mask_.testBit i = decide (i < k) := by
  obtain ⟨k, -, hk⟩ := h.pow2
  refine ⟨k, hk, ?_⟩
  intro i
  rw [h.mask, hk, Nat.testBit_two_pow_sub_one]

end Sized

/-! ## The walk around the table -/

/-- From every slot the steps `(idx + 1) & mask_` stay in the table, and are at
each slot once before they are back. -/
def VisitsAll (m : FlatOrderMap) : Prop :=
  ∀ idx < m.capacity_, (∀ d, m.next^[d] idx < m.capacity_) ∧
    (∀ slot < m.capacity_, ∃! d, d < m.capacity_ ∧ m.next^[d] idx = slot) ∧
    m.next^[m.capacity_] idx = idx

theorem Sized.visitsAll {m : FlatOrderMap} (h : Sized m) : VisitsAll m := by
  intro idx hidx
  rw [h.next_eq]
  refine ⟨?_, ?_, Cyclic.iterate_succ_self hidx⟩
  · intro d
    rw [Cyclic.iterate_succ_mod hidx]
    exact Nat.mod_lt _ h.capacity_pos
  · intro slot hslot
    exact Cyclic.existsUnique_iterate hidx hslot

/-- A request up to `2 ^ 63` gets the least power of two not below it, the mask
of one less, and with it a walk that visits every slot. -/
theorem nextPow2_least_mask_walk (n : UInt64) (hpos : 1 ≤ n.toNat) (hle : n.toNat ≤ 2 ^ 63) :
    IsLeast { p : Nat | p.isPowerOfTwo ∧ n.toNat ≤ p } (nextPow2 n).toNat ∧
    ((new n).mask_ = (new n).capacity_ - 1 ∧
      ∃ k, (new n).capacity_ = 2 ^ k ∧ ∀ i, (new n).mask_.testBit i = decide (i < k)) ∧
    VisitsAll (new n) := by
  have hpow : (nextPow2 n).toNat = 2 ^ Nat.clog 2 n.toNat := nextPow2_eq_pow_clog hpos hle
  have hsized : Sized (new n) := by
    apply new_sized
    rw [new_capacity, hpow]
    exact Nat.two_pow_pos _
  refine ⟨?_, ⟨hsized.mask, hsized.testBit_mask⟩, hsized.visitsAll⟩
  rw [hpow]
  exact isLeast_pow_clog n.toNat

/-- Half of the address space is the largest such request. -/
theorem nextPow2_least_mask_walk_top :
    IsLeast { p : Nat | p.isPowerOfTwo ∧ (9223372036854775808 : UInt64).toNat ≤ p }
      (nextPow2 9223372036854775808).toNat ∧
    ((new 9223372036854775808).mask_ = (new 9223372036854775808).capacity_ - 1 ∧
      ∃ k, (new 9223372036854775808).capacity_ = 2 ^ k ∧
        ∀ i, (new 9223372036854775808).mask_.testBit i = decide (i < k)) ∧
    VisitsAll (new 9223372036854775808) :=
  nextPow2_least_mask_walk 9223372036854775808 (by decide) (by decide)

end UltraHft.MarketData.FlatOrderMap
