import UltraHft.Common.Proofs.LatencyHistogram.Percentile

/-!
# The order of the percentiles

A larger target stops the scan no earlier, and a scan that stops does so at a
bucket with a sample in it.  Only bucket 0 is reported as more than it may hold.
This is so for the targets that the code computes and for the exact ones.
-/

namespace UltraHft.Common.LatencyHistogram

open UltraHft.Lib

variable {h : LatencyHistogram} {l : List Nat} {b b' : Nat} {target target' : UInt64}

theorem stopAt_mono (hle : target ≤ target') (hb' : h.stopAt target' = some b') :
    ∃ b ≤ b', h.stopAt target = some b := by
  obtain ⟨hlt', hstop', -⟩ := stopAt_eq_some_iff.mp hb'
  have hstop : target < h.cumulative (b' + 1) := UInt64.lt_of_le_of_lt hle hstop'
  cases hb : h.stopAt target with
  | none =>
      have hpasses := List.find?_eq_none.mp hb b' (List.mem_range.mpr hlt')
      exact absurd hstop (by simpa using hpasses)
  | some b =>
      refine ⟨b, ?_, rfl⟩
      by_contra hlater
      have hpasses := (stopAt_eq_some_iff.mp hb).2.2 b' (Nat.lt_of_not_le hlater)
      exact UInt64.not_le.mpr hstop hpasses

theorem Records.exists_of_stopAt (hl : Records h l) (hb : h.stopAt target = some b) :
    ∃ s ∈ l, s.log2 = b := by
  obtain ⟨-, hstop, hbefore⟩ := stopAt_eq_some_iff.mp hb
  have hentry : h.cumulative b ≤ target := by
    cases b with
    | zero => exact UInt64.zero_le
    | succ c => exact hbefore c (Nat.lt_succ_self c)
  have hbucket : (h.buckets_ b).toNat ≠ 0 := by
    intro hzero
    have hsame : h.cumulative (b + 1) = h.cumulative b := by
      rw [cumulative, show h.buckets_ b = 0 from UInt64.toNat_inj.mp hzero]
      exact UInt64.add_zero _
    rw [hsame] at hstop
    exact UInt64.not_le.mpr hstop hentry
  rw [hl.bucket_eq] at hbucket
  have hcount : 0 < l.countP (fun s => s.log2 = b) := by
    apply Nat.pos_of_ne_zero
    intro hzero
    rw [hzero] at hbucket
    exact hbucket rfl
  obtain ⟨s, hs, hlog⟩ := List.countP_pos_iff.mp hcount
  exact ⟨s, hs, of_decide_eq_true hlog⟩

theorem Records.bound_le_max (hl : Records h l) (hnonzero : ∃ s ∈ l, s ≠ 0)
    (hb : h.stopAt target = some b) : bound b ≤ h.max_ns_ := by
  have hlt : b < kBuckets := (stopAt_eq_some_iff.mp hb).1
  rw [UInt64.le_iff_toNat_le, toNat_bound hlt]
  by_cases hzero : b = 0
  · obtain ⟨s, hs, hpos⟩ := hnonzero
    subst hzero
    exact (Nat.one_le_iff_ne_zero.mpr hpos).trans (hl.le_max s hs)
  · obtain ⟨s, hs, rfl⟩ := hl.exists_of_stopAt hb
    have hpos : s ≠ 0 := by
      rintro rfl
      exact hzero rfl
    exact (Nat.log2_self_le hpos).trans (hl.le_max s hs)

theorem bound_mono (hle : b ≤ b') (hb' : b' < kBuckets) : bound b ≤ bound b' := by
  rw [UInt64.le_iff_toNat_le, toNat_bound (hle.trans_lt hb'), toNat_bound hb']
  exact Nat.pow_le_pow_right (by decide) hle

theorem Records.elim_mono (hl : Records h l) (hnonzero : ∃ s ∈ l, s ≠ 0)
    (hle : target ≤ target') :
    (h.stopAt target).elim h.max_ns_ bound ≤ (h.stopAt target').elim h.max_ns_ bound ∧
      (h.stopAt target).elim h.max_ns_ bound ≤ h.max_ns_ := by
  have hmax : (h.stopAt target).elim h.max_ns_ bound ≤ h.max_ns_ := by
    cases hb : h.stopAt target with
    | none => exact UInt64.le_refl _
    | some b => exact hl.bound_le_max hnonzero hb
  refine ⟨?_, hmax⟩
  cases hb' : h.stopAt target' with
  | none => exact hmax
  | some b' =>
      obtain ⟨b, hbb', hb⟩ := stopAt_mono hle hb'
      rw [hb]
      exact bound_mono hbb' (stopAt_eq_some_iff.mp hb').1

/-- `percentile`, with its target in exact arithmetic. -/
def exactPercentile (h : LatencyHistogram) (pct : ℚ) : UInt64 :=
  if h.total_ = 0 then 0
  else scan h (UInt64.ofNat (exactRank h.total_.toNat pct)) (List.range kBuckets) 0

theorem exactPercentile_eq (htotal : h.total_ ≠ 0) (p : ℚ) : h.exactPercentile p =
    (h.stopAt (UInt64.ofNat (exactRank h.total_.toNat p))).elim h.max_ns_ bound := by
  unfold exactPercentile
  rw [if_neg htotal]
  exact scan_eq h _

/-- Percentiles grow with the percentage and stay below the maximum. -/
def PercentilesOrdered (h : LatencyHistogram) : Prop :=
  ∀ p q : ℚ, 0 ≤ p → p ≤ q → q ≤ 100 →
    h.exactPercentile p ≤ h.exactPercentile q ∧ h.exactPercentile p ≤ h.maxNs

/-- The same with the targets of the code, where they are defined. -/
def ComputedOrdered (h : LatencyHistogram) : Prop :=
  ∀ p q : Binary64, 0 ≤ p.val → p.val ≤ q.val → q.val ≤ 100 →
    ∀ v w, h.percentile p = some v → h.percentile q = some w → v ≤ w ∧ v ≤ h.maxNs

theorem Records.total_eq_zero_iff (hl : Records h l) : h.total_ = 0 ↔ 2 ^ 64 ∣ l.length := by
  rw [← UInt64.toNat_inj, hl.total_eq]
  exact (Nat.dvd_iff_mod_eq_zero ..).symm

theorem target_mono {p q : ℚ} (hpq : p ≤ q) (h100 : q ≤ 100) (n : UInt64) :
    UInt64.ofNat (exactRank n.toNat p) ≤ UInt64.ofNat (exactRank n.toNat q) := by
  have hmono : exactRank n.toNat p ≤ exactRank n.toNat q := exactRank_mono hpq
  have htop : exactRank n.toNat q ≤ n.toNat := by
    apply Nat.floor_le_of_le
    calc q * n.toNat / 100
        ≤ 100 * n.toNat / 100 := by gcongr
      _ = n.toNat := mul_div_cancel_left₀ _ (by norm_num)
  have hn : n.toNat < 2 ^ 64 := n.toNat_lt
  rw [UInt64.le_iff_toNat_le, UInt64.toNat_ofNat', UInt64.toNat_ofNat',
    Nat.mod_eq_of_lt (by omega), Nat.mod_eq_of_lt (by omega)]
  exact hmono

theorem ordered_of_total_eq_zero (hzero : h.total_ = 0) :
    PercentilesOrdered h ∧ ComputedOrdered h := by
  have hexact : ∀ p, h.exactPercentile p = 0 := fun _ => if_pos hzero
  have hcomputed : ∀ p, h.percentile p = some 0 := fun _ => if_pos hzero
  constructor
  · intro p q _ _ _
    rw [hexact, hexact]
    exact ⟨UInt64.le_refl _, UInt64.zero_le⟩
  · intro p q _ _ _ v w hv hw
    rw [hcomputed] at hv hw
    cases hv
    cases hw
    exact ⟨UInt64.le_refl _, UInt64.zero_le⟩

theorem Records.ordered (hl : Records h l) (hsome : (∃ s ∈ l, s ≠ 0) ∨ 2 ^ 64 ∣ l.length) :
    PercentilesOrdered h ∧ ComputedOrdered h := by
  by_cases hzero : h.total_ = 0
  · exact ordered_of_total_eq_zero hzero
  have hnonzero : ∃ s ∈ l, s ≠ 0 :=
    hsome.resolve_right fun hdvd => hzero (hl.total_eq_zero_iff.mpr hdvd)
  constructor
  · intro p q _ hpq h100
    rw [exactPercentile_eq hzero, exactPercentile_eq hzero]
    exact hl.elim_mono hnonzero (target_mono hpq h100 h.total_)
  · intro p q hp hpq _ v w hv hw
    rw [percentile_eq hzero] at hv hw
    obtain ⟨k, hk, rfl⟩ := Option.map_eq_some_iff.mp hv
    obtain ⟨k', hk', rfl⟩ := Option.map_eq_some_iff.mp hw
    exact hl.elim_mono hnonzero (doubleRank_mono hp hpq hk hk')

section AllZero

variable (hl : Records h l) (hzero : ∀ s ∈ l, s = 0)
include hl hzero

theorem Records.cumulative_of_allZero (b : Nat) : h.cumulative (b + 1) = h.total_ := by
  have hcount : l.countP (fun s => s.log2 < b + 1) = l.length := by
    apply List.countP_eq_length.mpr
    intro s hs
    rw [hzero s hs, decide_eq_true_eq]
    exact Nat.succ_pos b
  rw [← UInt64.toNat_inj, hl.cumulative_eq, hcount, hl.total_eq]

theorem Records.max_of_allZero : h.maxNs = 0 := by
  rw [← UInt64.toNat_inj]
  rcases List.mem_cons.mp hl.max_mem with hmax | hmem
  · exact hmax
  · exact hzero _ hmem

theorem Records.stopAt_of_allZero (hlt : target < h.total_) : h.stopAt target = some 0 := by
  apply stopAt_eq_some_iff.mpr
  refine ⟨by decide, ?_, fun c hc => absurd hc (Nat.not_lt_zero c)⟩
  rw [hl.cumulative_of_allZero hzero]
  exact hlt

theorem Records.stopAt_total_of_allZero : h.stopAt h.total_ = none := by
  apply List.find?_eq_none.mpr
  intro b _
  rw [hl.cumulative_of_allZero hzero, decide_eq_true_eq]
  exact UInt64.lt_irrefl _

theorem Records.exactPercentile_of_allZero (htotal : h.total_ ≠ 0) :
    (∀ p : ℚ, 0 ≤ p → p < 100 → h.exactPercentile p = 1) ∧ h.exactPercentile 100 = 0 := by
  have hpos : 0 < h.total_.toNat := UInt64.lt_iff_toNat_lt.mp (UInt64.pos_iff_ne_zero.mpr htotal)
  have hfits : h.total_.toNat < 2 ^ 64 := h.total_.toNat_lt
  constructor
  · intro p _ h100
    have hrank : exactRank h.total_.toNat p < h.total_.toNat := exactRank_lt hpos h100
    have hlt : UInt64.ofNat (exactRank h.total_.toNat p) < h.total_ := by
      rw [UInt64.lt_iff_toNat_lt, UInt64.toNat_ofNat', Nat.mod_eq_of_lt (hrank.trans hfits)]
      exact hrank
    rw [exactPercentile_eq htotal, hl.stopAt_of_allZero hzero hlt]
    rfl
  · have htarget : UInt64.ofNat (exactRank h.total_.toNat 100) = h.total_ := by
      rw [exactRank, mul_div_cancel_left₀ _ (by norm_num), Nat.floor_natCast, UInt64.ofNat_toNat]
    rw [exactPercentile_eq htotal, htarget, hl.stopAt_total_of_allZero hzero]
    exact hl.max_of_allZero hzero

theorem Records.percentile_of_allZero (htotal : h.total_ ≠ 0) :
    (∀ p : Binary64, 0 ≤ p.val → p.val < 100 → h.percentile p = some 1) ∧
      (h.total_.toNat ≤ 2 ^ 53 → h.percentile 100 = some 0) := by
  have hpos : 0 < h.total_.toNat := UInt64.lt_iff_toNat_lt.mp (UInt64.pos_iff_ne_zero.mpr htotal)
  constructor
  · intro p hp h100
    obtain ⟨k, hk, hlt⟩ := exists_doubleRank hp h100 hpos h.total_.toNat_lt
    rw [percentile_eq htotal, hk, Option.map_some,
      hl.stopAt_of_allZero hzero (UInt64.lt_iff_toNat_lt.mpr hlt)]
    rfl
  · intro hfew
    rw [percentile_eq htotal, doubleRank_hundred hfew, UInt64.ofNat_toNat, Option.map_some,
      hl.stopAt_total_of_allZero hzero]
    exact congrArg some (hl.max_of_allZero hzero)

end AllZero

/-- Percentiles are ordered unless all samples are zero; then every percentage
below 100 is reported as 1 and the maximum as 0. -/
theorem percentilesOrdered_or_allZero (calls : List Call) :
    ((∃ s ∈ recorded calls, s ≠ 0) ∨ 2 ^ 64 ∣ (recorded calls).length →
      PercentilesOrdered (run calls) ∧ ComputedOrdered (run calls)) ∧
    ((∀ s ∈ recorded calls, s = 0) → ¬ 2 ^ 64 ∣ (recorded calls).length →
      (∀ p : ℚ, 0 ≤ p → p < 100 → (run calls).exactPercentile p = 1) ∧
        (run calls).exactPercentile 100 = 0 ∧
        (∀ p : Binary64, 0 ≤ p.val → p.val < 100 → (run calls).percentile p = some 1) ∧
        ((run calls).total_.toNat ≤ 2 ^ 53 → (run calls).percentile 100 = some 0) ∧
        (run calls).maxNs = 0) := by
  have hl : Records (run calls) (recorded calls) := records_run calls
  constructor
  · exact hl.ordered
  · intro hzero hndvd
    have htotal : (run calls).total_ ≠ 0 := fun h0 => hndvd (hl.total_eq_zero_iff.mp h0)
    obtain ⟨hbelow, htop⟩ := hl.exactPercentile_of_allZero hzero htotal
    obtain ⟨hbelow', htop'⟩ := hl.percentile_of_allZero hzero htotal
    exact ⟨hbelow, htop, hbelow', htop', hl.max_of_allZero hzero⟩

/-- After one sample of 0 ns the median is 1 and the maximum 0. -/
theorem zeroSample_not_percentilesOrdered : ¬ PercentilesOrdered (run [.recordNs 0]) := by
  intro hordered
  have hmax := (hordered 50 100 (by norm_num) (by norm_num) (by norm_num)).2
  have hmedian : (run [.recordNs 0]).exactPercentile 50 = 1 := by decide +kernel
  rw [hmedian] at hmax
  exact absurd hmax (by decide)

end UltraHft.Common.LatencyHistogram
