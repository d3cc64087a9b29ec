import UltraHft.Common.LatencyHistogram

/-!
# The target rank

`percentile` computes its rank in doubles: a quotient, a product and the number of
samples are rounded.  The rank stays below the number of samples, grows with the
percentage, and is at most one off the exact rank of up to `2 ^ 52` samples.
-/

namespace UltraHft.Common.LatencyHistogram

open UltraHft.Lib

variable {p q : Binary64} {n : Nat} {k k' : UInt64}

/-- The rank that `percentile` computes for `n` samples. -/
def doubleRank (n : Nat) (p : Binary64) : Option UInt64 :=
  (p / 100.0 * (n : Binary64)).toUInt64

/-- The rank in exact arithmetic. -/
def exactRank (n : Nat) (p : ℚ) : Nat := ⌊p * n / 100⌋₊

theorem exactRank_lt {p : ℚ} (hn : 0 < n) (h100 : p < 100) : exactRank n p < n := by
  have hpos : (0 : ℚ) < n := Nat.cast_pos.mpr hn
  apply (Nat.floor_lt' hn.ne').mpr
  calc p * n / 100
      < 100 * n / 100 := by gcongr
    _ = n := mul_div_cancel_left₀ _ (by norm_num)

theorem exactRank_mono {p q : ℚ} (hpq : p ≤ q) : exactRank n p ≤ exactRank n q := by
  apply Nat.floor_le_floor
  gcongr

theorem hundred_val : (100.0 : Binary64).val = 100 := by decide +kernel

theorem product_val (n : Nat) (p : Binary64) :
    (p / 100.0 * (n : Binary64)).val = nearest (nearest (p.val / 100) * nearest n) := by
  rw [← hundred_val]
  rfl

theorem product_nonneg (hp : 0 ≤ p.val) : 0 ≤ (p / 100.0 * (n : Binary64)).val := by
  rw [product_val]
  have hn : (0 : ℚ) ≤ n := Nat.cast_nonneg n
  exact nearest_nonneg (mul_nonneg (nearest_nonneg (by positivity)) (nearest_nonneg hn))

/-- The last number before 100 is far enough away from it. -/
theorem nearest_div_hundred_lt (hp : 0 ≤ p.val) (h100 : p.val < 100) :
    nearest (p.val / 100) < 1 := by
  have hpred := p.representable.le_pred (k := 100 * 2 ^ 46) (e := -46) (by norm_num)
    (by norm_num; exact h100)
  have hquotient : p.val / 100 ≤ ((2 ^ 53 - 1 : ℤ) : ℚ) * 2 ^ (-53 : ℤ) := by
    norm_num at hpred ⊢
    linarith
  have hrep : Representable (((2 ^ 53 - 1 : ℤ) : ℚ) * 2 ^ (-53 : ℤ)) :=
    ⟨2 ^ 53 - 1, -53, by norm_num, by norm_num, rfl⟩
  calc nearest (p.val / 100)
      ≤ ((2 ^ 53 - 1 : ℤ) : ℚ) * 2 ^ (-53 : ℤ) := nearest_le (by positivity) hquotient hrep
    _ < 1 := by norm_num

theorem one_le_nearest (hn : 0 < n) : 1 ≤ nearest n := by
  exact le_nearest zero_le_one (by exact_mod_cast hn) representable_one

theorem product_lt (hp : 0 ≤ p.val) (h100 : p.val < 100) (hn : 0 < n) :
    (p / 100.0 * (n : Binary64)).val < n := by
  apply lt_of_lt_nearest (p / 100.0 * (n : Binary64)).representable (Nat.cast_nonneg n)
  rw [product_val]
  exact nearest_mul_lt (nearest_nonneg (by positivity)) (nearest_div_hundred_lt hp h100)
    (representable_nearest _) (one_le_nearest hn)

theorem doubleRank_eq_some_iff (hp : 0 ≤ p.val) : doubleRank n p = some k ↔
    (p / 100.0 * (n : Binary64)).val < 2 ^ 64 ∧
      UInt64.ofNat ⌊(p / 100.0 * (n : Binary64)).val⌋₊ = k :=
  Binary64.toUInt64_eq_some_iff (product_nonneg hp)

theorem toNat_doubleRank (hp : 0 ≤ p.val) (hk : doubleRank n p = some k) :
    k.toNat = ⌊(p / 100.0 * (n : Binary64)).val⌋₊ := by
  obtain ⟨hsmall, rfl⟩ := (doubleRank_eq_some_iff hp).mp hk
  have hfloor : ⌊(p / 100.0 * (n : Binary64)).val⌋₊ < 2 ^ 64 := by
    apply (Nat.floor_lt' (by norm_num)).mpr
    exact_mod_cast hsmall
  rw [UInt64.toNat_ofNat', Nat.mod_eq_of_lt hfloor]

/-- Below 100 the conversion is defined, and the rank is that of a sample. -/
theorem exists_doubleRank (hp : 0 ≤ p.val) (h100 : p.val < 100) (hn : 0 < n) (hfew : n < 2 ^ 64) :
    ∃ k, doubleRank n p = some k ∧ k.toNat < n := by
  have hlt := product_lt hp h100 hn
  have hn' : (n : ℚ) < 2 ^ 64 := by exact_mod_cast hfew
  have hk := (doubleRank_eq_some_iff hp).mpr ⟨hlt.trans hn', rfl⟩
  refine ⟨_, hk, ?_⟩
  rw [toNat_doubleRank hp hk]
  exact (Nat.floor_lt' hn.ne').mpr hlt

-- Exactly, the ranks are 29 and 3. Lean's own doubles give the same as the code.
example : doubleRank 50 58 = some (58 / 100.0 * 50 : Float).toUInt64 := by decide +kernel

example : doubleRank 7 57.14285714285714 = some (57.14285714285714 / 100.0 * 7 : Float).toUInt64 :=
  by decide +kernel

theorem doubleRank_mono (hp : 0 ≤ p.val) (hpq : p.val ≤ q.val) (hk : doubleRank n p = some k)
    (hk' : doubleRank n q = some k') : k ≤ k' := by
  have hn : (0 : ℚ) ≤ nearest n := nearest_nonneg (Nat.cast_nonneg n)
  have hquotient : nearest (p.val / 100) ≤ nearest (q.val / 100) :=
    nearest_mono (by positivity) (by gcongr)
  have hfactor : 0 ≤ nearest (p.val / 100) := nearest_nonneg (by positivity)
  rw [UInt64.le_iff_toNat_le, toNat_doubleRank hp hk, toNat_doubleRank (hp.trans hpq) hk',
    product_val, product_val]
  apply Nat.floor_le_floor
  exact nearest_mono (mul_nonneg hfactor hn) (by gcongr)

theorem doubleRank_hundred (hfew : n ≤ 2 ^ 53) : doubleRank n 100 = some (UInt64.ofNat n) := by
  have hval : (100 / 100.0 * (n : Binary64)).val = n := by
    have hpercent : (100 : Binary64).val = 100 := Binary64.ofNat_val (by norm_num)
    have hcount : nearest n = n := nearest_of_representable (representable_natCast hfew)
    rw [product_val, hpercent, div_self (by norm_num), nearest_of_representable representable_one,
      one_mul, hcount, hcount]
  have hpercent : (0 : ℚ) ≤ (100 : Binary64).val := by
    rw [Binary64.ofNat_val (by norm_num)]
    norm_num
  refine (doubleRank_eq_some_iff hpercent).mpr ⟨?_, ?_⟩
  · rw [hval]
    exact_mod_cast hfew.trans_lt (by norm_num)
  · rw [hval, Nat.floor_natCast]

/-- Two roundings, of half a place each. -/
theorem abs_product_sub_le (hp : 0 ≤ p.val) (h100 : p.val < 100) (hn : 0 < n) (hfew : n ≤ 2 ^ 52) :
    |(p / 100.0 * (n : Binary64)).val - p.val * n / 100| ≤ 1 := by
  have hn' : (n : ℚ) ≤ 2 ^ 52 := by exact_mod_cast hfew
  have hexact : nearest n = n := nearest_of_representable (representable_natCast (by omega))
  have hquotient : |nearest (p.val / 100) - p.val / 100| ≤ 2 ^ (-52 : ℤ) / 2 :=
    abs_nearest_sub_le (by positivity) (by norm_num; linarith) (by norm_num)
  have hfactor : 0 ≤ nearest (p.val / 100) := nearest_nonneg (by positivity)
  have hproduct :
      |nearest (nearest (p.val / 100) * n) - nearest (p.val / 100) * n| ≤ 2 ^ (0 : ℤ) / 2 := by
    apply abs_nearest_sub_le (by positivity) _ (by norm_num)
    calc nearest (p.val / 100) * n
        ≤ 1 * 2 ^ 52 :=
          mul_le_mul (nearest_div_hundred_lt hp h100).le hn' (Nat.cast_nonneg n) zero_le_one
      _ ≤ 2 ^ (52 + 0 : ℤ) := by norm_num
  have hscaled : |nearest (p.val / 100) * n - p.val / 100 * n| ≤ 1 / 2 := by
    rw [← sub_mul, abs_mul, Nat.abs_cast]
    calc |nearest (p.val / 100) - p.val / 100| * n
        ≤ 2 ^ (-52 : ℤ) / 2 * 2 ^ 52 :=
          mul_le_mul hquotient hn' (Nat.cast_nonneg n) (by positivity)
      _ = 1 / 2 := by norm_num
  have hsplit := abs_sub_le (nearest (nearest (p.val / 100) * n)) (nearest (p.val / 100) * n)
    (p.val / 100 * n)
  rw [product_val, hexact, mul_div_right_comm]
  norm_num at hproduct
  linarith

theorem doubleRank_near (hp : 0 ≤ p.val) (h100 : p.val < 100) (hn : 0 < n) (hfew : n ≤ 2 ^ 52)
    (hk : doubleRank n p = some k) :
    k.toNat ≤ exactRank n p.val + 1 ∧ exactRank n p.val ≤ k.toNat + 1 := by
  have hnonneg : 0 ≤ (p / 100.0 * (n : Binary64)).val := product_nonneg hp
  obtain ⟨hlow, hhigh⟩ := abs_le.mp (abs_product_sub_le hp h100 hn hfew)
  rw [toNat_doubleRank hp hk, exactRank]
  constructor
  · rw [← Nat.floor_add_one (by positivity)]
    exact Nat.floor_le_floor (by linarith)
  · rw [← Nat.floor_add_one hnonneg]
    exact Nat.floor_le_floor (by linarith)

end UltraHft.Common.LatencyHistogram
