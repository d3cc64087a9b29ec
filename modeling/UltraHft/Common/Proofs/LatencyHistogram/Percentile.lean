import UltraHft.Common.Proofs.LatencyHistogram.Records
import UltraHft.Common.Proofs.LatencyHistogram.TargetRank
import UltraHft.Lib.OrderStatistics

/-!
# Percentiles and ranks

The scan over the cumulative counts stops in the bucket of the sample at the
target rank, and reports the lower end of that bucket.
-/

namespace UltraHft.Common.LatencyHistogram

open UltraHft.Lib UltraHft.Lib.OrderStatistics

variable {h : LatencyHistogram} {l : List Nat} {calls : List Call} {s b n : Nat}
  {target : UInt64} {p : Binary64}

def bound (b : Nat) : UInt64 := if b = 0 then 1 else 1 <<< UInt64.ofNat b

theorem toNat_bound (hb : b < kBuckets) : (bound b).toNat = 2 ^ b := by
  have hb' : b < 64 := hb
  unfold bound
  by_cases hzero : b = 0
  · subst hzero
    rfl
  have hshift : (UInt64.ofNat b).toNat % 64 = b := by
    rw [UInt64.toNat_ofNat']
    omega
  have hpow : 2 ^ b < 2 ^ 64 := Nat.pow_lt_pow_right (by decide) hb'
  rw [if_neg hzero, UInt64.toNat_shiftLeft, hshift, UInt64.toNat_one, Nat.one_shiftLeft]
  exact Nat.mod_eq_of_lt hpow

/-- The running count of the scan on entry to bucket `b`. -/
def cumulative (h : LatencyHistogram) : Nat → UInt64
  | 0 => 0
  | b + 1 => h.cumulative b + h.buckets_ b

theorem Records.cumulative_eq (hl : Records h l) (b : Nat) :
    (h.cumulative b).toNat = l.countP (fun s => s.log2 < b) % 2 ^ 64 := by
  induction b with
  | zero => simp [cumulative]
  | succ b ih =>
      rw [cumulative, UInt64.toNat_add, ih, hl.bucket_eq, countP_lt_succ,
        ← Nat.add_mod]

theorem scan_range' (h : LatencyHistogram) (target : UInt64) (b n : Nat) :
    h.scan target (List.range' b n) (h.cumulative b) =
      ((List.range' b n).find? fun c => h.cumulative (c + 1) > target).elim h.max_ns_ bound := by
  induction n generalizing b with
  | zero => rfl
  | succ n ih =>
      rw [List.range'_succ]
      by_cases hstop : h.cumulative (b + 1) > target
      · rw [List.find?_cons_of_pos (by simpa using hstop)]
        exact if_pos hstop
      · rw [List.find?_cons_of_neg (by simpa using hstop), ← ih (b + 1)]
        exact if_neg hstop

/-- The bucket in which the scan for `target` stops. -/
def stopAt (h : LatencyHistogram) (target : UInt64) : Option Nat :=
  (List.range kBuckets).find? fun b => h.cumulative (b + 1) > target

theorem scan_eq (h : LatencyHistogram) (target : UInt64) :
    h.scan target (List.range kBuckets) 0 = (h.stopAt target).elim h.max_ns_ bound := by
  unfold stopAt
  rw [List.range_eq_range']
  exact scan_range' h target 0 kBuckets

theorem stopAt_eq_some_iff : h.stopAt target = some b ↔
    b < kBuckets ∧ target < h.cumulative (b + 1) ∧ ∀ c < b, h.cumulative (c + 1) ≤ target := by
  unfold stopAt
  rw [List.find?_range_eq_some, List.mem_range]
  simp only [gt_iff_lt, decide_eq_true_eq, Bool.not_eq_true', decide_eq_false_iff_not,
    UInt64.not_lt]
  tauto

theorem log2_mono {a c : Nat} (hac : a ≤ c) : a.log2 ≤ c.log2 := by
  by_cases ha : a = 0
  · subst ha
    exact Nat.zero_le _
  · have hc : c ≠ 0 := by omega
    exact (Nat.le_log2 hc).mpr ((Nat.log2_self_le ha).trans hac)

theorem Records.total_ne_zero (hl : Records h l) (hne : l ≠ []) (hfew : l.length < 2 ^ 64) :
    h.total_ ≠ 0 := by
  intro hzero
  have htotal := hl.total_eq
  rw [hzero, Nat.mod_eq_of_lt hfew] at htotal
  exact (List.length_pos_of_ne_nil hne).ne htotal

theorem percentile_eq (htotal : h.total_ ≠ 0) (p : Binary64) :
    h.percentile p =
      (doubleRank h.total_.toNat p).map fun target => (h.stopAt target).elim h.max_ns_ bound := by
  unfold percentile
  rw [if_neg htotal]
  change (doubleRank h.total_.toNat p).bind _ = _
  cases doubleRank h.total_.toNat p with
  | none => rfl
  | some target => exact congrArg some (scan_eq h target)

/-- Of fewer than `2 ^ 64` samples, the scan stops in the bucket of the sample at
the target rank. -/
theorem Records.stopAt_eq (hl : Records h l) (hfew : l.length < 2 ^ 64)
    (hs : orderStat l target.toNat = some s) : h.stopAt target = some s.log2 := by
  have hbucket : s.log2 < kBuckets := log2_lt (hl.fits s (mem_of_orderStat hs))
  -- The running count passes the rank exactly from the bucket of `s` on.
  have hpasses : ∀ b, target < h.cumulative (b + 1) ↔ s.log2 < b + 1 := by
    intro b
    have hcount : l.countP (fun s => s.log2 < b + 1) < 2 ^ 64 :=
      (List.countP_le_length).trans_lt hfew
    rw [UInt64.lt_iff_toNat_lt, hl.cumulative_eq, Nat.mod_eq_of_lt hcount, lt_countP_iff hs,
      decide_eq_true_eq]
    intro a c hac hc
    rw [decide_eq_true_eq] at hc ⊢
    exact (log2_mono hac).trans_lt hc
  apply stopAt_eq_some_iff.mpr
  refine ⟨hbucket, (hpasses s.log2).mpr (Nat.lt_succ_self _), ?_⟩
  intro c hc
  rw [← UInt64.not_lt, hpasses c]
  omega

/-- Below 100 the percentile is the power of two below the sample at the rank that
the code computes. -/
theorem exists_sample (hne : recorded calls ≠ []) (hfew : (recorded calls).length < 2 ^ 64)
    (hp : 0 ≤ p.val) (h100 : p.val < 100) :
    ∃ k s v, doubleRank (recorded calls).length p = some k ∧
      orderStat (recorded calls) k.toNat = some s ∧ (run calls).percentile p = some v ∧
      v.toNat = 2 ^ s.log2 := by
  have hl : Records (run calls) (recorded calls) := records_run calls
  obtain ⟨k, hk, hlt⟩ := exists_doubleRank hp h100 (List.length_pos_of_ne_nil hne) hfew
  obtain ⟨s, hs⟩ := exists_orderStat hlt
  refine ⟨k, s, bound s.log2, hk, hs, ?_, toNat_bound (log2_lt (hl.fits s (mem_of_orderStat hs)))⟩
  rw [percentile_eq (hl.total_ne_zero hne hfew), hl.total_eq, Nat.mod_eq_of_lt hfew, hk,
    Option.map_some, hl.stopAt_eq hfew hs]
  rfl

/-! ## The percentile as a bound -/

/-- The percentile is an upper bound of the sample at the exact rank. -/
def BoundsRank (calls : List Call) (p : Binary64) : Prop :=
  ∃ s v, orderStat (recorded calls) (exactRank (recorded calls).length p.val) = some s ∧
    (run calls).percentile p = some v ∧ s ≤ v.toNat

/-- The sample at the exact rank has an earlier bucket than the one at the rank that
the code computes, or is the least positive number of that bucket, or zero. -/
def AtLowerEnd (l : List Nat) (p : Binary64) : Prop :=
  ∃ s k t, orderStat l (exactRank l.length p.val) = some s ∧ doubleRank l.length p = some k ∧
    orderStat l k.toNat = some t ∧
    (s.log2 < t.log2 ∨ s.log2 = t.log2 ∧ (s = 0 ∨ s.isPowerOfTwo))

theorem le_two_pow_iff {s b : Nat} :
    s ≤ 2 ^ b ↔ s.log2 < b ∨ s.log2 = b ∧ (s = 0 ∨ s.isPowerOfTwo) := by
  constructor
  · intro hle
    by_cases hzero : s = 0
    · subst hzero
      rcases Nat.eq_zero_or_pos b with rfl | hb
      · exact .inr ⟨rfl, .inl rfl⟩
      · exact .inl hb
    · have hlog : s.log2 ≤ b := by
        rw [← Nat.log2_two_pow (n := b)]
        exact log2_mono hle
      rcases hlog.lt_or_eq with hlt | rfl
      · exact .inl hlt
      · exact .inr ⟨rfl, .inr ⟨s.log2, le_antisymm hle (Nat.log2_self_le hzero)⟩⟩
  · rintro (hlt | ⟨rfl, rfl | ⟨k, rfl⟩⟩)
    · calc s
          ≤ 2 ^ (s.log2 + 1) := Nat.lt_log2_self.le
        _ ≤ 2 ^ b := Nat.pow_le_pow_right (by decide) hlt
    · exact Nat.zero_le _
    · rw [Nat.log2_two_pow]

/-- What is reported is the lower end of the bucket at the rank that the code
computes; this bounds the sample at the exact rank only if it is in an earlier
bucket, or at the lower end itself. -/
theorem boundsRank_iff (calls : List Call) (p : Binary64) (hne : recorded calls ≠ [])
    (hfew : (recorded calls).length < 2 ^ 64) (hp : 0 ≤ p.val) (h100 : p.val < 100) :
    BoundsRank calls p ↔ AtLowerEnd (recorded calls) p := by
  obtain ⟨k, t, v, hk, ht, hv, hpow⟩ := exists_sample hne hfew hp h100
  obtain ⟨s, hs⟩ := exists_orderStat (exactRank_lt (List.length_pos_of_ne_nil hne) h100)
  have hbounds : BoundsRank calls p ↔ s ≤ 2 ^ t.log2 := by
    rw [← hpow]
    constructor
    · rintro ⟨s', v', hs', hv', hle⟩
      rwa [Option.some.inj (hs.symm.trans hs'), Option.some.inj (hv.symm.trans hv')]
    · intro hle
      exact ⟨s, v, hs, hv, hle⟩
  rw [hbounds, le_two_pow_iff]
  constructor
  · intro hend
    exact ⟨s, k, t, hs, hk, ht, hend⟩
  · rintro ⟨s', k', t', hs', hk', ht', hend⟩
    obtain rfl := Option.some.inj (hk.symm.trans hk')
    rwa [Option.some.inj (hs.symm.trans hs'), Option.some.inj (ht.symm.trans ht')]

def sevenSamples : List Call :=
  List.replicate 4 (.recordNs 3) ++ List.replicate 3 (.recordNs 1024)

/-- The exact rank is 3, and the code goes on to the next one. -/
theorem boundsRank_iff_sevenSamples :
    BoundsRank sevenSamples 57.14285714285714 ↔
      AtLowerEnd (recorded sevenSamples) 57.14285714285714 :=
  boundsRank_iff sevenSamples 57.14285714285714 (by decide) (by decide) (by decide +kernel)
    (by decide +kernel)

/-- A lone sample of 3 ns is reported as 2 ns. -/
theorem threeNanoseconds_not_boundsRank : ¬ BoundsRank [.recordNs 3] 50 := by
  have hsample : orderStat (recorded [.recordNs 3])
      (exactRank (recorded [.recordNs 3]).length (50 : Binary64).val) = some 3 := by
    decide +kernel
  have hpercentile : (run [.recordNs 3]).percentile 50 = some 2 := by decide +kernel
  rintro ⟨s, v, hs, hv, hle⟩
  rw [hsample] at hs
  rw [hpercentile] at hv
  cases hs
  cases hv
  exact absurd hle (by decide)

/-! ## The factor of two -/

/-- The percentile is within a factor of two of the sample at rank `k`. -/
def WithinFactor (calls : List Call) (p : Binary64) (k : Nat) : Prop :=
  ∃ s v, orderStat (recorded calls) k = some s ∧ (run calls).percentile p = some v ∧
    v.toNat ≤ max s 1 ∧ max s 1 < 2 * v.toNat

/-- Bucketing loses less than a factor of two, at the rank that the code computes.
This is the exact rank or one next to it, if there are at most `2 ^ 52` samples. -/
theorem percentile_within_factor (calls : List Call) (p : Binary64) (hne : recorded calls ≠ [])
    (hfew : (recorded calls).length < 2 ^ 64) (hp : 0 ≤ p.val) (h100 : p.val < 100) :
    ∃ k, doubleRank (recorded calls).length p = some k ∧ WithinFactor calls p k.toNat ∧
      ((recorded calls).length ≤ 2 ^ 52 →
        k.toNat ≤ exactRank (recorded calls).length p.val + 1 ∧
          exactRank (recorded calls).length p.val ≤ k.toNat + 1) := by
  obtain ⟨k, s, v, hk, hs, hv, hpow⟩ := exists_sample hne hfew hp h100
  refine ⟨k, hk, ⟨s, v, hs, hv, ?_⟩, fun hfewer =>
    doubleRank_near hp h100 (List.length_pos_of_ne_nil hne) hfewer hk⟩
  rw [hpow]
  by_cases hzero : s = 0
  · subst hzero
    decide
  have hmax : max s 1 = s := Nat.max_eq_left (Nat.pos_of_ne_zero hzero)
  rw [hmax, ← Nat.pow_succ']
  exact ⟨Nat.log2_self_le hzero, Nat.lt_log2_self⟩

def fiftySamples : List Call :=
  List.replicate 29 (.recordNs 1) ++ List.replicate 21 (.recordNs 1024)

theorem percentile_within_factor_fiftySamples :
    ∃ k, doubleRank (recorded fiftySamples).length 58 = some k ∧
      WithinFactor fiftySamples 58 k.toNat ∧
      ((recorded fiftySamples).length ≤ 2 ^ 52 →
        k.toNat ≤ exactRank (recorded fiftySamples).length (58 : Binary64).val + 1 ∧
          exactRank (recorded fiftySamples).length (58 : Binary64).val ≤ k.toNat + 1) :=
  percentile_within_factor fiftySamples 58 (by decide) (by decide) (by decide +kernel)
    (by decide +kernel)

/-- 58 percent of 50 are 29, of which the product in doubles falls short. -/
theorem fiftySamples_not_withinFactor :
    ¬ WithinFactor fiftySamples 58
      (exactRank (recorded fiftySamples).length (58 : Binary64).val) := by
  have hsorted : (recorded fiftySamples).Pairwise (· ≤ ·) := by decide +kernel
  have hrank : exactRank (recorded fiftySamples).length (58 : Binary64).val = 29 := by
    decide +kernel
  have hsample : orderStat (recorded fiftySamples) 29 = some 1024 := by
    rw [orderStat_of_sorted hsorted]
    decide +kernel
  have hpercentile : (run fiftySamples).percentile 58 = some 1 := by decide +kernel
  rintro ⟨s, v, hs, hv, -, hlt⟩
  rw [hrank, hsample] at hs
  rw [hpercentile] at hv
  cases hs
  cases hv
  exact absurd hlt (by decide)

end UltraHft.Common.LatencyHistogram
