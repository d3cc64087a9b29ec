import Mathlib.Algebra.Group.Action.Defs
import UltraHft.Common.Proofs.LatencyHistogram.Records
import UltraHft.Lib.Wrapping

/-!
# The mean

The running sum has 64 bits.  While the exact sum fits, the mean is the floor of
the exact average; one carry out of the sum and it is too small.
-/

namespace UltraHft.Common.LatencyHistogram

open UltraHft.Lib

variable {h : LatencyHistogram} {l : List Nat}

/-- The mean is the floor of the exact average, and between the extremes. -/
def MeanExact (h : LatencyHistogram) (l : List Nat) : Prop :=
  h.minNs ≤ h.meanNs ∧ h.meanNs ≤ h.maxNs ∧ h.meanNs.toNat = l.sum / l.length

instance : Decidable (MeanExact h l) := inferInstanceAs (Decidable (_ ∧ _ ∧ _))

theorem Records.total_pos (hl : Records h l) (hpos : 0 < l.length) (hfew : l.length < 2 ^ 64) :
    h.total_ > 0 := by
  change (0 : UInt64).toNat < h.total_.toNat
  rw [hl.total_eq, Nat.mod_eq_of_lt hfew]
  exact hpos

theorem Records.toNat_meanNs (hl : Records h l) (hpos : 0 < l.length)
    (hfew : l.length < 2 ^ 64) : h.meanNs.toNat = l.sum % 2 ^ 64 / l.length := by
  unfold meanNs
  rw [if_pos (hl.total_pos hpos hfew), UInt64.toNat_div, hl.sum_eq, hl.total_eq,
    Nat.mod_eq_of_lt hfew]

theorem Records.average_bounds (hl : Records h l) (hpos : 0 < l.length) :
    h.min_ns_.toNat ≤ l.sum / l.length ∧ l.sum / l.length ≤ h.max_ns_.toNat := by
  constructor
  · apply (Nat.le_div_iff_mul_le hpos).mpr
    calc h.min_ns_.toNat * l.length
        = l.length • h.min_ns_.toNat := by rw [smul_eq_mul, Nat.mul_comm]
      _ ≤ l.sum := List.card_nsmul_le_sum l _ hl.min_le
  · apply Nat.div_le_of_le_mul
    calc l.sum
        ≤ l.length • h.max_ns_.toNat := List.sum_le_card_nsmul l _ hl.le_max
      _ = l.length * h.max_ns_.toNat := smul_eq_mul ..

theorem Records.meanExact_of_sum_lt (hl : Records h l) (hpos : 0 < l.length)
    (hfew : l.length < 2 ^ 64) (hsum : l.sum < 2 ^ 64) : MeanExact h l := by
  have hmean : h.meanNs.toNat = l.sum / l.length := by
    rw [hl.toNat_meanNs hpos hfew, Nat.mod_eq_of_lt hsum]
  obtain ⟨hmin, hmax⟩ := hl.average_bounds hpos
  refine ⟨?_, ?_, hmean⟩
  · rw [UInt64.le_iff_toNat_le, hmean]
    unfold minNs
    rw [if_pos (hl.total_pos hpos hfew)]
    exact hmin
  · rw [UInt64.le_iff_toNat_le, hmean]
    exact hmax

theorem Records.meanExact_iff_of_total_eq_zero (htotal : h.total_ = 0) :
    MeanExact h l ↔ l.sum / l.length = 0 := by
  have hmean : h.meanNs = 0 := by
    unfold meanNs
    rw [htotal]
    rfl
  have hmin : h.minNs = 0 := by
    unfold minNs
    rw [htotal]
    rfl
  unfold MeanExact
  rw [hmean, hmin]
  constructor
  · intro hexact
    exact hexact.2.2.symm
  · intro hzero
    exact ⟨UInt64.le_refl _, UInt64.zero_le, hzero.symm⟩

theorem Records.meanExact_iff (hl : Records h l) (hfew : l.length ≤ 2 ^ 64) :
    MeanExact h l ↔ l.sum < 2 ^ 64 := by
  rcases Nat.eq_zero_or_pos l.length with hnil | hpos
  · obtain rfl := List.length_eq_zero_iff.mp hnil
    rw [Records.meanExact_iff_of_total_eq_zero (UInt64.toNat_inj.mp hl.total_eq)]
    decide
  rcases Nat.lt_or_eq_of_le hfew with hlt | hfull
  · constructor
    · intro hexact
      apply (Wrapping.mod_div_eq_iff hpos hfew).mp
      rw [← hl.toNat_meanNs hpos hlt]
      exact hexact.2.2
    · exact hl.meanExact_of_sum_lt hpos hlt
  · have htotal : h.total_ = 0 := by
      rw [← UInt64.toNat_inj, hl.total_eq, hfull]
      rfl
    rw [Records.meanExact_iff_of_total_eq_zero htotal, Nat.div_eq_zero_iff_lt hpos, hfull]

/-- After every sequence of calls the mean is exact if the values recorded since
the last reset, at most `2 ^ 64` of them, have a sum that fits in 64 bits; of so
many values it is exact only then. -/
theorem meanExact_of_sum_fits (calls : List Call) :
    ((recorded calls).length ≤ 2 ^ 64 ∧ (recorded calls).sum < 2 ^ 64 →
      MeanExact (run calls) (recorded calls)) ∧
    ((recorded calls).length ≤ 2 ^ 64 → MeanExact (run calls) (recorded calls) →
      (recorded calls).sum < 2 ^ 64) := by
  have hl : Records (run calls) (recorded calls) := records_run calls
  constructor
  · intro ⟨hfew, hsum⟩
    exact (hl.meanExact_iff hfew).mpr hsum
  · intro hfew hexact
    exact (hl.meanExact_iff hfew).mp hexact

/-- A second sample of one cycle less than none brings the mean down to 0. -/
theorem backwardStep_not_meanExact :
    ¬ MeanExact (run [.recordNs 1, .recordCycles 18446744073709551615 1000000000])
        (recorded [.recordNs 1, .recordCycles 18446744073709551615 1000000000]) := by
  decide +kernel

end UltraHft.Common.LatencyHistogram
