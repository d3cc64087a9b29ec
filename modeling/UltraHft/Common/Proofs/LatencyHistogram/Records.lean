import Mathlib.Algebra.BigOperators.Group.List.Basic
import Mathlib.Algebra.Order.BigOperators.Group.List
import Mathlib.Data.List.Induction
import UltraHft.Common.LatencyHistogram

/-!
# What a histogram records

The members of a histogram as functions of the values recorded since the last
reset.  The counters and the sum are exact up to multiples of `2 ^ 64`.
-/

namespace UltraHft.Common.LatencyHistogram

variable {h : LatencyHistogram} {l : List Nat} {ns : UInt64} {s b : Nat}

theorem bucketIndex_eq_log2 (ns : UInt64) : bucketIndex ns = ns.toNat.log2 := by
  unfold bucketIndex
  by_cases hns : ns = 0
  · subst hns
    rfl
  rw [if_neg hns]
  have hbits : ns.toBitVec ≠ 0 := fun hzero => hns (UInt64.toBitVec_inj.mp hzero)
  have hpos : ns.toNat ≠ 0 := fun hzero => hns (UInt64.toNat_inj.mp hzero)
  have hlow : 2 ^ (64 - 1 - ns.toBitVec.clz.toNat) ≤ ns.toNat :=
    BitVec.two_pow_sub_clz_le_toNat_of_ne_zero (by decide) hbits
  have hhigh : ns.toNat < 2 ^ (64 - ns.toBitVec.clz.toNat) := BitVec.toNat_lt_two_pow_sub_clz
  have hclz : ns.toBitVec.clz.toNat < 64 := BitVec.lt_def.mp (BitVec.clz_lt_iff_ne_zero.mpr hbits)
  have hidx : 63 - ns.toBitVec.clz.toNat < kBuckets := by
    change _ < 64
    omega
  dsimp only
  rw [if_pos hidx]
  symm
  apply (Nat.log2_eq_iff hpos).mpr
  refine ⟨hlow, ?_⟩
  rw [show 63 - ns.toBitVec.clz.toNat + 1 = 64 - ns.toBitVec.clz.toNat by omega]
  exact hhigh

theorem log2_lt (hs : s < 2 ^ 64) : s.log2 < kBuckets := by
  by_cases hzero : s = 0
  · subst hzero
    decide
  · exact (Nat.log2_lt hzero).mpr hs

/-- The product fits in 128 bits, the quotient is cut to 64. -/
theorem toNat_cyclesToNs (cycles tsc_hz : UInt64) :
    (cyclesToNs cycles tsc_hz).toNat =
      cycles.toNat * 1000000000 / tsc_hz.toNat % 2 ^ 64 := by
  have hcycles : cycles.toNat < 2 ^ 64 := cycles.toNat_lt
  unfold cyclesToNs
  rw [UInt64.toNat_ofNat', Nat.mod_eq_of_lt (a := cycles.toNat * 1000000000) (by omega)]

/-- The values recorded since the last reset, after one more call. -/
def recordedBy (l : List Nat) : Call → List Nat
  | .recordNs ns => l ++ [ns.toNat]
  | .recordCycles cycles tsc_hz =>
      if tsc_hz = 0 then l else l ++ [(cyclesToNs cycles tsc_hz).toNat]
  | .reset => []

/-- The values that a sequence of calls has recorded since its last reset. -/
def recorded (calls : List Call) : List Nat := calls.foldl recordedBy []

structure Records (h : LatencyHistogram) (l : List Nat) : Prop where
  fits : ∀ s ∈ l, s < 2 ^ 64
  total_eq : h.total_.toNat = l.length % 2 ^ 64
  sum_eq : h.sum_ns_.toNat = l.sum % 2 ^ 64
  bucket_eq : ∀ b, (h.buckets_ b).toNat = l.countP (fun s => s.log2 = b) % 2 ^ 64
  min_le : ∀ s ∈ l, h.min_ns_.toNat ≤ s
  le_max : ∀ s ∈ l, s ≤ h.max_ns_.toNat
  max_mem : h.max_ns_.toNat ∈ 0 :: l

theorem records_reset : Records reset [] where
  fits := by simp
  total_eq := rfl
  sum_eq := rfl
  bucket_eq := fun _ => rfl
  min_le := by simp
  le_max := by simp
  max_mem := by simp [reset]

theorem min_recordNs (h : LatencyHistogram) (ns : UInt64) :
    (h.recordNs ns).min_ns_.toNat = min ns.toNat h.min_ns_.toNat := by
  change (if ns < h.min_ns_ then ns else h.min_ns_).toNat = _
  by_cases hlt : ns < h.min_ns_
  · rw [if_pos hlt, Nat.min_eq_left (UInt64.lt_iff_toNat_lt.mp hlt).le]
  · rw [if_neg hlt]
    rw [UInt64.lt_iff_toNat_lt, Nat.not_lt] at hlt
    exact (Nat.min_eq_right hlt).symm

theorem max_recordNs (h : LatencyHistogram) (ns : UInt64) :
    (h.recordNs ns).max_ns_.toNat = max ns.toNat h.max_ns_.toNat := by
  change (if ns > h.max_ns_ then ns else h.max_ns_).toNat = _
  by_cases hgt : ns > h.max_ns_
  · rw [if_pos hgt, Nat.max_eq_left (UInt64.lt_iff_toNat_lt.mp hgt).le]
  · rw [if_neg hgt]
    rw [gt_iff_lt, UInt64.lt_iff_toNat_lt, Nat.not_lt] at hgt
    exact (Nat.max_eq_right hgt).symm

theorem bucket_recordNs (h : LatencyHistogram) (ns : UInt64) (b : Nat) :
    ((h.recordNs ns).buckets_ b).toNat =
      ((h.buckets_ b).toNat + if ns.toNat.log2 = b then 1 else 0) % 2 ^ 64 := by
  change (Function.update h.buckets_ _ _ b).toNat = _
  rw [bucketIndex_eq_log2]
  by_cases hb : ns.toNat.log2 = b
  · rw [if_pos hb, ← hb, Function.update_self, UInt64.toNat_add]
    rfl
  · rw [if_neg hb, Function.update_of_ne (Ne.symm hb), Nat.add_zero]
    exact (Nat.mod_eq_of_lt (h.buckets_ b).toNat_lt).symm

theorem Records.recordNs (hl : Records h l) (ns : UInt64) :
    Records (h.recordNs ns) (l ++ [ns.toNat]) where
  fits := by
    intro s hs
    rcases List.mem_append.mp hs with hs | hs
    · exact hl.fits s hs
    · rw [List.mem_singleton.mp hs]
      exact ns.toNat_lt
  total_eq := by
    change (h.total_ + 1).toNat = _
    rw [UInt64.toNat_add, hl.total_eq, List.length_append]
    exact Nat.mod_add_mod ..
  sum_eq := by
    change (h.sum_ns_ + ns).toNat = _
    rw [UInt64.toNat_add, hl.sum_eq, List.sum_append, List.sum_singleton, Nat.mod_add_mod]
  bucket_eq := by
    intro b
    rw [bucket_recordNs, hl.bucket_eq, List.countP_append, List.countP_singleton,
      Nat.mod_add_mod]
    simp only [decide_eq_true_eq]
  min_le := by
    intro s hs
    rw [min_recordNs]
    rcases List.mem_append.mp hs with hs | hs
    · exact (Nat.min_le_right ..).trans (hl.min_le s hs)
    · rw [List.mem_singleton.mp hs]
      exact Nat.min_le_left ..
  le_max := by
    intro s hs
    rw [max_recordNs]
    rcases List.mem_append.mp hs with hs | hs
    · exact (hl.le_max s hs).trans (Nat.le_max_right ..)
    · rw [List.mem_singleton.mp hs]
      exact Nat.le_max_left ..
  max_mem := by
    rw [max_recordNs, ← List.cons_append]
    rcases Nat.le_total ns.toNat h.max_ns_.toNat with hle | hle
    · rw [Nat.max_eq_right hle]
      exact List.mem_append_left _ hl.max_mem
    · rw [Nat.max_eq_left hle]
      simp

theorem Records.exec (hl : Records h l) (call : Call) :
    Records (h.exec call) (recordedBy l call) := by
  cases call with
  | recordNs ns => exact hl.recordNs ns
  | recordCycles cycles tsc_hz =>
      change Records (if tsc_hz = 0 then h else h.recordNs (cyclesToNs cycles tsc_hz))
        (if tsc_hz = 0 then l else l ++ [(cyclesToNs cycles tsc_hz).toNat])
      by_cases hhz : tsc_hz = 0
      · rw [if_pos hhz, if_pos hhz]
        exact hl
      · rw [if_neg hhz, if_neg hhz]
        exact hl.recordNs _
  | reset => exact records_reset

/-- Every sequence of calls leaves a histogram that tells what was recorded. -/
theorem records_run (calls : List Call) : Records (run calls) (recorded calls) := by
  induction calls using List.reverseRecOn with
  | nil => exact records_reset
  | append_singleton calls call ih =>
      unfold run recorded
      rw [List.foldl_concat, List.foldl_concat]
      exact ih.exec call

end UltraHft.Common.LatencyHistogram
