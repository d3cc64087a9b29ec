import UltraHft.Common.Proofs.LatencyHistogram.Records
import UltraHft.Lib.Wrapping
import UltraHft.MarketData.DpdkPacketHandler

/-!
# Cycles to nanoseconds

The histogram converts through a 128-bit product, the packet handler through a
64-bit one.  The two agree until the latter wraps.
-/

namespace UltraHft.MarketData.DpdkPacketHandler

open UltraHft.Common UltraHft.Lib

variable {hz cycles earlier : UInt64}

/-- The nanoseconds in `cycles` at `hz`, rounded down. -/
def nanoseconds (hz cycles : UInt64) : Nat := cycles.toNat * 1000000000 / hz.toNat

theorem toNat_getTimestampNs (hhz : hz ≠ 0) :
    (getTimestampNs (some (hz, cycles))).toNat =
      cycles.toNat * 1000000000 % 2 ^ 64 / hz.toNat := by
  unfold getTimestampNs
  dsimp only
  rw [if_neg hhz, UInt64.toNat_div, UInt64.toNat_mul]
  rfl

theorem recordCycles_eq (hhz : hz ≠ 0) (h : LatencyHistogram) :
    h.recordCycles cycles hz = h.recordNs (UInt64.ofNat (nanoseconds hz cycles)) := by
  have hns : LatencyHistogram.cyclesToNs cycles hz = UInt64.ofNat (nanoseconds hz cycles) := by
    rw [← UInt64.toNat_inj, LatencyHistogram.toNat_cyclesToNs, UInt64.toNat_ofNat']
    rfl
  unfold LatencyHistogram.recordCycles
  rw [if_neg hhz, hns]

/-- The timestamp is the exact value and the one the histogram records, and no
earlier timestamp is larger. -/
def TimestampExact (hz cycles : UInt64) : Prop :=
  (getTimestampNs (some (hz, cycles))).toNat = nanoseconds hz cycles ∧
    (∀ h : LatencyHistogram,
      h.recordCycles cycles hz = h.recordNs (getTimestampNs (some (hz, cycles)))) ∧
    ∀ earlier ≤ cycles,
      getTimestampNs (some (hz, earlier)) ≤ getTimestampNs (some (hz, cycles))

theorem getTimestampNs_exact_iff (hhz : hz ≠ 0) :
    (getTimestampNs (some (hz, cycles))).toNat = nanoseconds hz cycles ↔
      cycles.toNat * 1000000000 < 2 ^ 64 := by
  have hpos : 0 < hz.toNat := UInt64.lt_iff_toNat_lt.mp (UInt64.pos_iff_ne_zero.mpr hhz)
  rw [toNat_getTimestampNs hhz]
  exact Wrapping.mod_div_eq_iff hpos hz.toNat_lt.le

theorem getTimestampNs_mono (hhz : hz ≠ 0) (hle : earlier ≤ cycles)
    (hfits : cycles.toNat * 1000000000 < 2 ^ 64) :
    getTimestampNs (some (hz, earlier)) ≤ getTimestampNs (some (hz, cycles)) := by
  have hproduct : earlier.toNat * 1000000000 ≤ cycles.toNat * 1000000000 :=
    Nat.mul_le_mul_right _ (UInt64.le_iff_toNat_le.mp hle)
  rw [UInt64.le_iff_toNat_le, (getTimestampNs_exact_iff hhz).mpr hfits,
    (getTimestampNs_exact_iff hhz).mpr (hproduct.trans_lt hfits)]
  exact Nat.div_le_div_right hproduct

/-- The two conversions agree, and are exact, exactly while the product of the
cycles and the nanoseconds in a second fits in 64 bits. -/
theorem timestampExact_iff (hz cycles : UInt64) (hhz : hz ≠ 0) :
    TimestampExact hz cycles ↔ cycles.toNat * 1000000000 < 2 ^ 64 := by
  constructor
  · intro hexact
    exact (getTimestampNs_exact_iff hhz).mp hexact.1
  · intro hproduct
    have hexact := (getTimestampNs_exact_iff hhz).mpr hproduct
    refine ⟨hexact, ?_, ?_⟩
    · intro h
      rw [recordCycles_eq hhz, ← hexact, UInt64.ofNat_toNat]
    · intro earlier hle
      exact getTimestampNs_mono hhz hle hproduct

theorem timestampExact_iff_threeGigahertz :
    TimestampExact 3000000000 18446744073 ↔ (18446744073 : UInt64).toNat * 1000000000 < 2 ^ 64 :=
  timestampExact_iff 3000000000 18446744073 (by decide)

/-- At 1 GHz the timestamp falls back to 0 after 18446744073 ns. -/
theorem nineteenSeconds_not_timestampExact :
    nanoseconds 1000000000 18446744074 < 2 ^ 64 ∧
      getTimestampNs (some (1000000000, 18446744073)) = 18446744073 ∧
      getTimestampNs (some (1000000000, 18446744074)) = 0 ∧
      ¬ TimestampExact 1000000000 18446744074 := by
  have hfits : nanoseconds 1000000000 18446744074 < 2 ^ 64 := by decide
  refine ⟨hfits, by decide, by decide, ?_⟩
  intro hexact
  exact absurd hexact.1 (by decide)

end UltraHft.MarketData.DpdkPacketHandler
